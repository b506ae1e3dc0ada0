/-
# What the kernel reads from the image of `mkfs`

`Blocks` is what `mkfs` keeps to about the blocks that it hands out: the blocks between the meta
blocks and `freeblock` are those in the records and indirect blocks, each in one place, and the
blocks from `freeblock` on are zero.  `Holds` is what it keeps to about the data of one inode.  Both
are kept by each part of a round of `iappend`, as long as one indirect block is enough.
-/
import Xv6.Mkfs
import Xv6.Reading

open Function Outcome List

namespace Mkfs

/-! ## Where the numbers of blocks are -/

/-- A place for the number of a block: an address in the record, or an entry of the indirect
block. -/
inductive Place where
  | addr (k : Fin (NDIRECT + 1))
  | entry (j : Fin NINDIRECT)
deriving DecidableEq, Fintype

/-- The place of the indirect block. -/
abbrev Place.indirect : Place := .addr (Fin.ofNat _ NDIRECT)

/-- The place of block `fbn` of a file. -/
def place (fbn : ℕ) : Place :=
  if fbn < NDIRECT then .addr (Fin.ofNat _ fbn) else .entry (Fin.ofNat _ (fbn - NDIRECT))

/-- How many blocks of a file have a place. -/
abbrev NPLACES : ℕ := NDIRECT + NINDIRECT

theorem place_ne_indirect (fbn : ℕ) : place fbn ≠ .indirect := by
  unfold place
  split
  next h =>
    simp only [ne_eq, Place.addr.injEq, Fin.ext_iff, Fin.val_ofNat]
    unfold NDIRECT at *
    omega
  next => rintro ⟨⟩

theorem place_injective {a b : ℕ} (ha : a < NPLACES) (hb : b < NPLACES) (h : place a = place b) :
    a = b := by
  unfold place at h
  unfold NPLACES NDIRECT NINDIRECT at *
  split_ifs at h <;>
    simp only [Place.addr.injEq, Place.entry.injEq, Fin.ext_iff, Fin.val_ofNat] at h <;> omega

/-- The number at a place, `0` if there is none. -/
def Dinode.at (din : Dinode) (d : Disk) : Place → ℕ
  | .addr k => (din.addrs k).toNat
  | .entry j => childOf d (din.addrs (Fin.ofNat _ NDIRECT)).toNat j

variable {din : Dinode}

/-- An entry is there only if the indirect block is. -/
theorem Dinode.at_entry {d : Disk} {j : Fin NINDIRECT} (h : din.at d .indirect ≠ 0) :
    din.at d (.entry j) = (d (din.at d .indirect)).word j := if_neg h

/-- The places of a record stay while its indirect block does. -/
theorem Dinode.at_congr {d d' : Disk}
    (h : din.at d .indirect ≠ 0 → d' (din.at d .indirect) = d (din.at d .indirect)) (s : Place) :
    din.at d' s = din.at d s := by
  cases s with
  | addr k => rfl
  | entry j =>
    by_cases hzero : din.at d .indirect = 0
    · exact (if_pos hzero).trans (if_pos hzero).symm
    · have hentry : din.at d' (.entry j) = (d' (din.at d .indirect)).word j := Dinode.at_entry hzero
      rw [hentry, Dinode.at_entry hzero, h hzero]

/-! ## The invariant -/

/-- The inodes made so far. -/
def Made (n i : ℕ) : Prop := 0 < i ∧ i < n

/-- **The blocks handed out**, with the records `dins` of the inodes below `n`. -/
structure Blocks (dins : ℕ → Dinode) (d : Disk) (freeblock n : ℕ) : Prop where
  start_le : nmeta ≤ freeblock
  range : ∀ i t, Made n i → (dins i).at d t ≠ 0 →
    nmeta ≤ (dins i).at d t ∧ (dins i).at d t < freeblock
  unshared : ∀ i j s t, Made n i → Made n j → (dins i).at d s ≠ 0 →
    (dins i).at d s = (dins j).at d t → i = j ∧ s = t
  covered : ∀ b, nmeta ≤ b → b < freeblock → ∃ i t, Made n i ∧ (dins i).at d t = b
  fresh : ∀ b, freeblock ≤ b → d b = Block.zero

/-- **The data of an inode.** -/
structure Holds (din : Dinode) (d : Disk) (c : List UInt8) : Prop where
  fits : c.length ≤ NPLACES * BSIZE
  data : ∀ k, k < c.length → din.at d (place (k / BSIZE)) ≠ 0 ∧
    (d (din.at d (place (k / BSIZE)))).byte (k % BSIZE) = c.getD k 0

variable {dins dins' : ℕ → Dinode} {d d' : Disk} {freeblock n i : ℕ} {t : Place}

/-- There are blocks enough for all inodes. -/
theorem Blocks.lt_size (h : Blocks dins d freeblock n) (hn : n ≤ NINODES) : freeblock + 2 < FSSIZE := by
  classical
  have hsub : Finset.Ico nmeta freeblock ⊆
      (Finset.Ico 1 n ×ˢ (Finset.univ : Finset Place)).image fun x => (dins x.1).at d x.2 := by
    intro b hb
    rw [Finset.mem_Ico] at hb
    obtain ⟨i, t, ⟨hpos, hi⟩, rfl⟩ := h.covered b hb.1 hb.2
    refine Finset.mem_image.mpr ⟨(i, t), Finset.mem_product.mpr ⟨?_, Finset.mem_univ t⟩, rfl⟩
    exact Finset.mem_Ico.mpr ⟨hpos, hi⟩
  have hcard := (Finset.card_le_card hsub).trans Finset.card_image_le
  have hplaces : (Finset.univ : Finset Place).card = 140 := by decide +kernel
  rw [Finset.card_product, Nat.card_Ico, Nat.card_Ico, hplaces] at hcard
  unfold NINODES at hn
  have hmeta : nmeta = 120 := rfl
  unfold FSSIZE
  omega

/-- **A free block is put into an empty place.** -/
theorem Blocks.fill (h : Blocks dins d freeblock n) (hi : Made n i) (ht : (dins i).at d t = 0)
    (hat : ∀ j s, Made n j → (dins' j).at d' s =
      if j = i ∧ s = t then freeblock else (dins j).at d s)
    (hfresh : ∀ b, freeblock + 1 ≤ b → d' b = d b) : Blocks dins' d' (freeblock + 1) n where
  start_le := h.start_le.trans (Nat.le_succ _)
  range j s hj hne := by
    rw [hat j s hj] at hne ⊢
    split at hne
    next heq =>
      rw [if_pos heq]
      exact ⟨h.start_le, Nat.lt_succ_self _⟩
    next heq =>
      rw [if_neg heq]
      obtain ⟨hlo, hhi⟩ := h.range j s hj hne
      exact ⟨hlo, hhi.trans (Nat.lt_succ_self _)⟩
  unshared j k s u hj hk hne heq := by
    rw [hat j s hj] at hne heq
    rw [hat k u hk] at heq
    -- no place holds the block before it is handed out
    have hout : ∀ j s, Made n j → (dins j).at d s ≠ freeblock := by
      intro j s hj heq
      have hpos := h.start_le
      have hmeta : nmeta = 120 := rfl
      have hlt := (h.range j s hj (by omega)).2
      omega
    split at heq <;> split at heq
    next h₁ h₂ => exact ⟨h₁.1.trans h₂.1.symm, h₁.2.trans h₂.2.symm⟩
    next h₁ h₂ => exact absurd heq.symm (hout k u hk)
    next h₁ h₂ => exact absurd heq (hout j s hj)
    next h₁ h₂ =>
      rw [if_neg h₁] at hne
      exact h.unshared j k s u hj hk hne heq
  covered b hlo hhi := by
    rcases Nat.lt_succ_iff_lt_or_eq.mp hhi with hlt | rfl
    · obtain ⟨j, s, hj, rfl⟩ := h.covered b hlo hlt
      refine ⟨j, s, hj, ?_⟩
      rw [hat j s hj, if_neg]
      rintro ⟨rfl, rfl⟩
      rw [ht] at hlo
      exact absurd hlo (by decide)
    · exact ⟨i, t, hi, by rw [hat i t hi, if_pos ⟨rfl, rfl⟩]⟩
  fresh b hb := by
    rw [hfresh b hb]
    exact h.fresh b ((Nat.le_succ _).trans hb)

variable {c : List UInt8}

/-- Data stay where their blocks do. -/
theorem Holds.keep {din din' : Dinode} (h : Holds din d c)
    (hat : ∀ fbn, din.at d (place fbn) ≠ 0 → din'.at d' (place fbn) = din.at d (place fbn) ∧
      d' (din.at d (place fbn)) = d (din.at d (place fbn))) : Holds din' d' c where
  fits := h.fits
  data k hk := by
    obtain ⟨hne, hbyte⟩ := h.data k hk
    obtain ⟨hsame, hdisk⟩ := hat _ hne
    rw [hsame, hdisk]
    exact ⟨hne, hbyte⟩

/-! ## Parts of a round -/

/-- What a part of `iappend` for inode `i` does: it changes the addresses of `i`, and no data of
other inodes. -/
structure Extends (n i : ℕ) (dins : ℕ → Dinode) (m : State) (din : Dinode) (m' : State) : Prop where
  freeinode : m'.freeinode = m.freeinode
  blocks : Blocks (update dins i din) m'.disk m'.freeblock n
  others : ∀ j c, Made n j → j ≠ i → Holds (dins j) m.disk c → Holds (dins j) m'.disk c
  fields : din = { dins i with addrs := din.addrs }
  low : ∀ b, b < nmeta → m'.disk b = m.disk b

section Parts

variable {m m' m'' : State} {din din' : Dinode}

theorem Extends.refl (h : Blocks dins m.disk m.freeblock n) : Extends n i dins m (dins i) m :=
  ⟨rfl, by rwa [update_eq_self], fun _ _ _ _ h => h, rfl, fun _ _ => rfl⟩

theorem Extends.trans (h : Extends n i dins m din m')
    (h' : Extends n i (update dins i din) m' din' m'') : Extends n i dins m din' m'' := by
  refine ⟨h'.freeinode.trans h.freeinode, ?_, fun j c hj hne hold => ?_, ?_, fun b hb => ?_⟩
  · have hblocks := h'.blocks
    rwa [update_idem] at hblocks
  · have hnext := h'.others j c hj hne
    rw [update_of_ne hne] at hnext
    exact hnext (h.others j c hj hne hold)
  · have hfields := h'.fields
    rw [update_self, h.fields] at hfields
    exact hfields
  · rw [h'.low b hb, h.low b hb]

theorem toNat_ofNat_freeblock (h : Blocks dins d freeblock n) (hn : n ≤ NINODES) :
    (UInt32.ofNat freeblock).toNat = freeblock := by
  have hlt := h.lt_size hn
  unfold FSSIZE at hlt
  rw [UInt32.toNat_ofNat']
  exact Nat.mod_eq_of_lt (by omega)

/-- A block is not the boot block. -/
theorem Blocks.freeblock_ne_zero (h : Blocks dins d freeblock n) : freeblock ≠ 0 := by
  have hmeta : nmeta = 120 := rfl
  have := h.start_le
  omega

/-- **An address is filled in**, if it was empty. -/
theorem addrAt_extends (h : Blocks dins m.disk m.freeblock n) (hn : n ≤ NINODES) (hi : Made n i)
    (k : Fin (NDIRECT + 1)) :
    ∃ din m', m.addrAt (dins i) k = (din, m') ∧ Extends n i dins m din m' ∧ m'.disk = m.disk ∧
      din.at m.disk (.addr k) ≠ 0 ∧ ∀ c, Holds (dins i) m.disk c → Holds din m.disk c := by
  unfold State.addrAt
  split
  swap
  · next hne =>
      exact ⟨_, _, rfl, Extends.refl h, rfl, fun hzero => hne (UInt32.toNat_inj.mp hzero), fun _ h => h⟩
  next hzero =>
    have hval := toNat_ofNat_freeblock h hn
    set din : Dinode :=
      { dins i with addrs := update (dins i).addrs k (UInt32.ofNat m.freeblock) } with hdin
    -- the addresses of the record, and the entries of the indirect block
    have hself : ∀ s, din.at m.disk s = if s = .addr k then m.freeblock else (dins i).at m.disk s := by
      intro s
      cases s with
      | addr l =>
        show (update (dins i).addrs k _ l).toNat = _
        rw [update_apply]
        split
        next hl => rw [if_pos (by rw [hl]), hval]
        next hl => rw [if_neg (by simpa using hl)]; rfl
      | entry j =>
        rw [if_neg nofun]
        show childOf m.disk (update (dins i).addrs k _ _).toNat j = childOf m.disk _ j
        rw [update_apply]
        split
        next hk =>
          -- a new indirect block is zero
          rw [hval, hk, hzero]
          unfold childOf
          rw [if_neg h.freeblock_ne_zero, h.fresh _ le_rfl]
          simp [Block.word]
        next => rfl
    have hempty : (dins i).at m.disk (.addr k) = 0 := by
      show ((dins i).addrs k).toNat = 0
      rw [hzero]
      rfl
    refine ⟨din, _, rfl, ⟨rfl, ?_, fun _ _ _ _ h => h, rfl, fun _ _ => rfl⟩, rfl, ?_, fun c hc => ?_⟩
    · refine h.fill hi hempty (fun j s _ => ?_) fun _ _ => rfl
      by_cases hj : j = i
      · subst hj
        rw [update_self, hself]
        simp
      · rw [update_of_ne hj, if_neg fun heq => hj heq.1]
    · rw [hself, if_pos rfl]
      exact h.freeblock_ne_zero
    · refine hc.keep fun fbn hne => ⟨?_, rfl⟩
      rw [hself, if_neg]
      intro heq
      rw [heq] at hne
      exact hne hempty

/-- **An entry of the indirect block is filled in.** -/
theorem entry_extends (h : Blocks dins m.disk m.freeblock n) (hn : n ≤ NINODES) (hi : Made n i)
    {j : Fin NINDIRECT} (hroot : (dins i).at m.disk .indirect ≠ 0)
    (hempty : (dins i).at m.disk (.entry j) = 0) {blk : Block}
    (hblk : blk = (m.disk ((dins i).at m.disk .indirect)).setWord j m.freeblock) :
    Extends n i dins m (dins i)
      ({ m with freeblock := m.freeblock + 1 }.wsect ((dins i).at m.disk .indirect) blk) ∧
    (dins i).at (update m.disk ((dins i).at m.disk .indirect) blk) (.entry j) = m.freeblock ∧
    ∀ c, Holds (dins i) m.disk c →
      Holds (dins i) (update m.disk ((dins i).at m.disk .indirect) blk) c := by
  set b := (dins i).at m.disk .indirect with hb
  set d' := update m.disk b blk with hd'
  have hlt := h.lt_size hn
  have hrange := h.range i .indirect hi hroot
  -- every other place is in another block
  have hat : ∀ j' s, Made n j' → (dins j').at d' s =
      if j' = i ∧ s = .entry j then m.freeblock else (dins j').at m.disk s := by
    intro j' s hj'
    by_cases hj : j' = i
    swap
    · rw [if_neg fun heq => hj heq.1]
      refine Dinode.at_congr (fun hne => update_of_ne ?_ _ _) s
      exact fun heq => hj (h.unshared j' i .indirect .indirect hj' hi hne heq).1
    subst hj
    cases s with
    | addr k =>
      rw [if_neg fun heq => nomatch heq.2]
      rfl
    | entry l =>
      have hentry : (dins j').at d' (.entry l) = (d' b).word l := Dinode.at_entry hroot
      rw [hentry, Dinode.at_entry hroot, hd', update_self, hblk,
        Block.word_setWord _ j.isLt (by unfold FSSIZE at hlt; omega)]
      by_cases hl : l = j
      · rw [if_pos (by rw [hl]), if_pos ⟨rfl, by rw [hl]⟩]
      · rw [if_neg fun heq => hl (Fin.ext heq), if_neg fun heq => hl (Place.entry.inj heq.2)]
  have hdata : ∀ j' fbn, Made n j' → (dins j').at m.disk (place fbn) ≠ 0 →
      (dins j').at d' (place fbn) = (dins j').at m.disk (place fbn) ∧
      d' ((dins j').at m.disk (place fbn)) = m.disk ((dins j').at m.disk (place fbn)) := by
    intro j' fbn hj' hne
    refine ⟨?_, update_of_ne ?_ _ _⟩
    · rw [hat j' _ hj', if_neg]
      rintro ⟨rfl, heq⟩
      rw [heq] at hne
      exact hne hempty
    · intro heq
      exact place_ne_indirect fbn (h.unshared j' i _ _ hj' hi hne heq).2
  refine ⟨⟨rfl, ?_, fun j' c hj' _ hc => hc.keep fun fbn => hdata j' fbn hj', rfl, fun c hc => ?_⟩, ?_,
    fun c hc => hc.keep fun fbn => hdata i fbn hi⟩
  · rw [update_eq_self]
    refine h.fill hi hempty hat fun c hc => update_of_ne ?_ _ _
    omega
  · exact update_of_ne (by omega) _ _
  · rw [hat i _ hi, if_pos ⟨rfl, rfl⟩]

/-- The same blocks, in the same places; a new inode has none. -/
theorem Blocks.congr {n' : ℕ} (h : Blocks dins d freeblock n) (hn : n ≤ n')
    (hat : ∀ j s, Made n j → (dins' j).at d' s = (dins j).at d s)
    (hnew : ∀ j s, Made n' j → n ≤ j → (dins' j).at d' s = 0)
    (hfresh : ∀ b, freeblock ≤ b → d' b = d b) : Blocks dins' d' freeblock n' := by
  have hold : ∀ j s, Made n' j → (dins' j).at d' s ≠ 0 → Made n j := fun j s hj hne =>
    ⟨hj.1, not_le.mp fun hle => hne (hnew j s hj hle)⟩
  refine ⟨h.start_le, fun j s hj hne => ?_, fun j k s u hj hk hne heq => ?_, fun b hlo hhi => ?_,
    fun b hb => (hfresh b hb).trans (h.fresh b hb)⟩
  · have hmade := hold j s hj hne
    rw [hat j s hmade] at hne ⊢
    exact h.range j s hmade hne
  · have hmade := hold j s hj hne
    have hmade' := hold k u hk (heq ▸ hne)
    rw [hat j s hmade] at hne heq
    rw [hat k u hmade'] at heq
    exact h.unshared j k s u hmade hmade' hne heq
  · obtain ⟨j, s, hj, hb⟩ := h.covered b hlo hhi
    exact ⟨j, s, ⟨hj.1, hj.2.trans_le hn⟩, (hat j s hj).trans hb⟩

section

variable (h : Blocks dins m.disk m.freeblock n)

include h

/-- **Data are written** behind those that are there. -/
theorem data_extends (hi : Made n i) {c p : List UInt8} {n1 : ℕ} (hc : Holds (dins i) m.disk c)
    (hle : n1 ≤ p.length) (hin : c.length % BSIZE + n1 ≤ BSIZE) (hfits : c.length / BSIZE < NPLACES)
    (hx : (dins i).at m.disk (place (c.length / BSIZE)) ≠ 0) {blk : Block}
    (hblk : blk = (m.disk ((dins i).at m.disk (place (c.length / BSIZE)))).memmove
      (c.length % BSIZE) n1 fun k => p.getD k 0) :
    Extends n i dins m (dins i) (m.wsect ((dins i).at m.disk (place (c.length / BSIZE))) blk) ∧
    Holds (dins i) (update m.disk ((dins i).at m.disk (place (c.length / BSIZE))) blk)
      (c ++ p.take n1) := by
  set fbn := c.length / BSIZE with hfbn
  set x := (dins i).at m.disk (place fbn) with hxdef
  set d' := update m.disk x blk with hd'
  have hrange := h.range i _ hi hx
  have hat : ∀ j s, Made n j → (dins j).at d' s = (dins j).at m.disk s := by
    intro j s hj
    refine Dinode.at_congr (fun hne => update_of_ne ?_ _ _) s
    exact fun heq => place_ne_indirect fbn (h.unshared j i _ _ hj hi hne heq).2.symm
  refine ⟨⟨rfl, ?_, fun j c hj hne hc => ?_, rfl, fun b hb => ?_⟩, ?_, fun k hk => ?_⟩
  · rw [update_eq_self]
    exact h.congr le_rfl hat (fun j s hj hle => absurd hj.2 (not_lt.mpr hle)) fun b hb =>
      update_of_ne (by omega) _ _
  · refine hc.keep fun fbn' hne' => ⟨hat j _ hj, update_of_ne ?_ _ _⟩
    exact fun heq => hne (h.unshared j i _ _ hj hi hne' heq).1
  · exact update_of_ne (by omega) _ _
  · rw [length_append, length_take]
    unfold NPLACES NDIRECT NINDIRECT BSIZE at *
    omega
  · rw [length_append, length_take, min_eq_left hle] at hk
    rw [hat i _ hi, hd']
    by_cases hlt : k < c.length
    · obtain ⟨hne, hbyte⟩ := hc.data k hlt
      refine ⟨hne, ?_⟩
      rw [getD_append _ _ _ _ hlt, ← hbyte]
      by_cases hblock : k / BSIZE = fbn
      · rw [hblock, ← hxdef, update_self, hblk, Block.byte_memmove_of_not_mem]
        unfold BSIZE at *
        omega
      · rw [update_of_ne]
        intro heq
        have hplace := (h.unshared i i _ _ hi hi hne heq).2
        refine hblock (place_injective ?_ hfits hplace)
        have := hc.fits
        unfold NPLACES NDIRECT NINDIRECT BSIZE at *
        omega
    · have hblock : k / BSIZE = fbn := by
        unfold BSIZE at *
        omega
      have hoff : k % BSIZE = c.length % BSIZE + (k - c.length) := by
        unfold BSIZE at *
        omega
      rw [hblock, ← hxdef]
      refine ⟨hx, ?_⟩
      rw [update_self, hblk, hoff, Block.byte_memmove_of_mem _ _ (by omega) (by omega) (by omega),
        Nat.add_sub_cancel_left, getD_append_right _ _ _ _ (by omega)]
      simp only [getD_eq_getElem?_getD]
      rw [getElem?_take_of_lt (by omega)]

/-! ## The loop of `iappend` -/

theorem rsect_eq (hn : n ≤ NINODES) {b : ℕ} (hb : b < m.freeblock) : m.rsect b = .ok (m.disk b) := by
  have hlt := h.lt_size hn
  unfold State.rsect
  exact if_pos (by omega)

/-- **`locate`** finds or makes the place of block `fbn`. -/
theorem locate_spec (hn : n ≤ NINODES) (hi : Made n i) {fbn : ℕ} (hfbn : fbn < NPLACES) :
    ∃ din m', m.locate (dins i) fbn = .ok (din.at m'.disk (place fbn), din, m') ∧
      Extends n i dins m din m' ∧ din.at m'.disk (place fbn) ≠ 0 ∧
      ∀ c, Holds (dins i) m.disk c → Holds din m'.disk c := by
  unfold State.locate place
  by_cases hdirect : fbn < NDIRECT
  · simp only [if_pos hdirect]
    obtain ⟨din, m', heq, hext, hdisk, hne, hhold⟩ := addrAt_extends h hn hi (Fin.ofNat _ fbn)
    rw [heq]
    refine ⟨din, m', rfl, hext, ?_, ?_⟩
    · rw [hdisk]
      exact hne
    · rw [hdisk]
      exact hhold
  · simp only [if_neg hdirect]
    obtain ⟨din, m', heq, hext, hdisk, hne, hhold⟩ := addrAt_extends h hn hi (Fin.ofNat _ NDIRECT)
    rw [← hdisk] at hne
    replace hhold : ∀ c, Holds (dins i) m.disk c → Holds din m'.disk c := by rwa [hdisk]
    have hblocks := hext.blocks
    have hself : update dins i din i = din := update_self _ _ _
    have hroot : (update dins i din i).at m'.disk .indirect ≠ 0 := by rwa [hself]
    have hlt : fbn - NDIRECT < NINDIRECT := by
      unfold NPLACES NDIRECT NINDIRECT at *
      omega
    have hval : (Fin.ofNat NINDIRECT (fbn - NDIRECT)).val = fbn - NDIRECT := Nat.mod_eq_of_lt hlt
    have hrange := (hblocks.range i .indirect hi hroot).2
    rw [hself] at hrange
    have hword : din.at m'.disk (.entry (Fin.ofNat _ (fbn - NDIRECT))) =
        (m'.disk (din.at m'.disk .indirect)).word (fbn - NDIRECT) := by
      rw [Dinode.at_entry hne, hval]
    rw [heq]
    have hread : m'.rsect (din.addrs (Fin.ofNat _ NDIRECT)).toNat =
        .ok (m'.disk (din.at m'.disk .indirect)) := rsect_eq hblocks hn hrange
    simp only [hread, if_neg (not_le.mpr hlt), bind, Except.bind]
    by_cases hzero : (m'.disk (din.at m'.disk .indirect)).word (fbn - NDIRECT) = 0
    · rw [if_pos hzero]
      have hempty : (update dins i din i).at m'.disk (.entry (Fin.ofNat _ (fbn - NDIRECT))) =
          0 := by rw [hself, hword, hzero]
      have hentry := entry_extends hblocks hn hi hroot hempty rfl
      rw [hself, hval] at hentry
      obtain ⟨hext', hfilled, hhold'⟩ := hentry
      refine ⟨din, _, ?_, hext.trans hext', ?_, fun c hc => hhold' c (hhold c hc)⟩
      · have hsize := hblocks.lt_size hn
        have hstored := Block.word_setWord_self (m'.disk (din.at m'.disk .indirect)) hlt
          (show m'.freeblock < 2 ^ 32 by unfold FSSIZE at hsize; omega)
        exact congrArg (fun x => Except.ok (x, _)) (hstored.trans hfilled.symm)
      · show din.at (update _ _ _) _ ≠ 0
        rw [hfilled]
        exact hblocks.freeblock_ne_zero
    · rw [if_neg hzero]
      refine ⟨din, m', ?_, hext, ?_, hhold⟩
      · rw [hword]
      · rwa [hword]

/-- Behind the last place the array `indirect` ends. -/
theorem locate_overrun (hn : n ≤ NINODES) (hi : Made n i) {fbn : ℕ} (hfbn : NPLACES ≤ fbn) :
    m.locate (dins i) fbn = .error .overrun := by
  have hdirect : ¬ fbn < NDIRECT := by
    unfold NPLACES NDIRECT at *
    omega
  have hlt : NINDIRECT ≤ fbn - NDIRECT := by
    unfold NPLACES NDIRECT NINDIRECT at *
    omega
  obtain ⟨din, m', heq, hext, hdisk, hne, -⟩ := addrAt_extends h hn hi (Fin.ofNat _ NDIRECT)
  rw [← hdisk] at hne
  have hself : update dins i din i = din := update_self _ _ _
  have hrange := (hext.blocks.range i .indirect hi (by rwa [hself])).2
  rw [hself] at hrange
  have hread : m'.rsect (din.addrs (Fin.ofNat _ NDIRECT)).toNat =
      .ok (m'.disk (din.at m'.disk .indirect)) := rsect_eq hext.blocks hn hrange
  unfold State.locate
  rw [if_neg hdirect, heq]
  simp only [hread, if_pos hlt, bind, Except.bind]

end

/-- What the loop of `iappend` does to inode `i` with the data `c`: it appends `p` if there is room,
and runs over the end of the array otherwise. -/
def Appends (n i : ℕ) (dins : ℕ → Dinode) (m : State) (c p : List UInt8)
    (r : Except Failure (ℕ × Dinode × State)) : Prop :=
  (c.length + p.length ≤ NPLACES * BSIZE → ∃ din m', r = .ok (c.length + p.length, din, m') ∧
    Extends n i dins m din m' ∧ Holds din m'.disk (c ++ p)) ∧
  (NPLACES * BSIZE < c.length + p.length → r = .error .overrun)

theorem Appends.nil (h : Blocks dins m.disk m.freeblock n) (hc : Holds (dins i) m.disk c) :
    Appends n i dins m c [] (.ok (c.length, dins i, m)) := by
  refine ⟨fun _ => ⟨dins i, m, rfl, Extends.refl h, ?_⟩, fun hlt => absurd hc.fits ?_⟩
  · rwa [append_nil]
  · rw [length_nil] at hlt
    omega

/-- **The loop of `iappend`.** -/
theorem iappendLoop_spec (hn : n ≤ NINODES) (hi : Made n i) (rounds : ℕ) (dins : ℕ → Dinode)
    (m : State) (c p : List UInt8) (hrounds : p.length ≤ rounds)
    (h : Blocks dins m.disk m.freeblock n) (hc : Holds (dins i) m.disk c) :
    Appends n i dins m c p (State.iappendLoop rounds m (dins i) c.length p) := by
  induction rounds generalizing dins m c p with
  | zero =>
    obtain rfl : p = [] := eq_nil_of_length_eq_zero (by omega)
    exact Appends.nil h hc
  | succ rounds ih =>
    rw [State.iappendLoop]
    by_cases hp : p = []
    · rw [if_pos hp, hp]
      exact Appends.nil h hc
    rw [if_neg hp]
    have hpos : 0 < p.length := length_pos_iff.mpr hp
    have hguard : ¬ MAXFILE ≤ c.length / BSIZE := by
      have := hc.fits
      unfold NPLACES NDIRECT NINDIRECT BSIZE at *
      unfold MAXFILE
      omega
    dsimp only
    rw [if_neg hguard]
    rcases Nat.lt_or_ge (c.length / BSIZE) NPLACES with hfbn | hfbn
    swap
    · rw [locate_overrun h hn hi hfbn]
      refine ⟨fun hle => ?_, fun _ => rfl⟩
      unfold NPLACES NDIRECT NINDIRECT BSIZE at *
      omega
    obtain ⟨din, m', heq, hext, hne, hhold⟩ := locate_spec h hn hi hfbn
    rw [heq]
    have hself : update dins i din i = din := update_self _ _ _
    have hblocks := hext.blocks
    have hrange := (hblocks.range i _ hi (by rwa [hself])).2
    rw [hself] at hrange
    set n1 := min p.length ((c.length / BSIZE + 1) * BSIZE - c.length) with hn1
    obtain ⟨hn1pos, hn1le, hin, hoff⟩ : 0 < n1 ∧ n1 ≤ p.length ∧ c.length % BSIZE + n1 ≤ BSIZE ∧
        c.length - c.length / BSIZE * BSIZE = c.length % BSIZE := by
      unfold BSIZE at *
      omega
    have hdata := data_extends hblocks hi (by rw [hself]; exact hhold c hc) hn1le hin hfbn
      (by rwa [hself]) rfl
    rw [hself] at hdata
    obtain ⟨hext', hholds'⟩ := hdata
    simp only [rsect_eq hblocks hn hrange, bind, Except.bind, hoff]
    have hlen : (c ++ p.take n1).length = c.length + n1 := by
      rw [length_append, length_take, min_eq_left hn1le]
    have hu : u32 (c.length + n1) = (c ++ p.take n1).length := by
      have := hholds'.fits
      rw [hlen] at this ⊢
      unfold NPLACES NDIRECT NINDIRECT BSIZE at this
      exact Nat.mod_eq_of_lt (by omega)
    have hrest := ih (update dins i din) _ (c ++ p.take n1) (p.drop n1)
      (by rw [length_drop]; omega) (by have := hext'.blocks; rwa [update_idem] at this)
      (by rw [hself]; exact hholds')
    have htotal : (c ++ p.take n1).length + (p.drop n1).length = c.length + p.length := by
      rw [hlen, length_drop]
      omega
    unfold Appends at hrest
    rw [htotal, append_assoc, take_append_drop, hself] at hrest
    rw [hu]
    refine ⟨fun hle => ?_, hrest.2⟩
    obtain ⟨din', m'', hcall, hext'', hholds''⟩ := hrest.1 hle
    refine ⟨din', m'', hcall, hext.trans (hext'.trans ?_), hholds''⟩
    rwa [update_idem]

end Parts

/-! ## Calls -/

/-- **The invariant**: what has been appended to the inodes so far is there. -/
structure Inv (m : State) (contents : ℕ → List UInt8) : Prop where
  le : m.freeinode ≤ NINODES
  blocks : Blocks m.dinode m.disk m.freeblock m.freeinode
  type : ∀ i, Made m.freeinode i → (m.dinode i).type = T_DIR ∨ (m.dinode i).type = T_FILE
  size : ∀ i, Made m.freeinode i → (m.dinode i).size.toNat = (contents i).length
  holds : ∀ i, Made m.freeinode i → Holds (m.dinode i) m.disk (contents i)

section Calls

variable {m m' : State} {contents : ℕ → List UInt8}

/-- Only the data blocks matter for the places. -/
theorem Blocks.at_congr (h : Blocks dins d freeblock n) (hdisk : ∀ b, nmeta ≤ b → d' b = d b)
    (hi : Made n i) (s : Place) : (dins i).at d' s = (dins i).at d s :=
  Dinode.at_congr (fun hne => hdisk _ (h.range i _ hi hne).1) s

theorem Blocks.holds_congr (h : Blocks dins d freeblock n) (hdisk : ∀ b, nmeta ≤ b → d' b = d b)
    (hi : Made n i) (hc : Holds (dins i) d c) :
    Holds (dins i) d' c :=
  hc.keep fun _ hne => ⟨h.at_congr hdisk hi _, hdisk _ (h.range i _ hi hne).1⟩

theorem nmeta_le (b : ℕ) (hb : nmeta ≤ b) : sb.bmapstart ≤ b :=
  le_trans (by decide) hb

/-- The image that `main` starts with. -/
theorem inv_start : Inv State.start fun _ => [] := by
  have hnone : ∀ i, ¬ Made State.start.freeinode i := fun i hi => absurd hi.2 (not_lt.mpr hi.1)
  refine ⟨by decide, ⟨le_rfl, fun i _ hi => absurd hi (hnone i), fun i _ _ _ hi => absurd hi (hnone i),
    fun b hlo hhi => absurd hhi (not_lt.mpr hlo), fun b hb => ?_⟩, fun i hi => absurd hi (hnone i),
    fun i hi => absurd hi (hnone i), fun i hi => absurd hi (hnone i)⟩
  show update (fun _ => Block.zero) 1 State.superBlock b = _
  rw [update_of_ne]
  rintro rfl
  exact absurd hb (by decide)

/-- A record with no addresses. -/
theorem at_eq_zero (h : ∀ k, din.addrs k = 0) (s : Place) : din.at d s = 0 := by
  cases s with
  | addr k =>
    show (din.addrs k).toNat = 0
    rw [h]
    rfl
  | entry j =>
    refine if_pos ?_
    rw [h]
    rfl

/-- A step: **`ialloc`** makes an empty inode. -/
theorem Inv.ialloc (h : Inv m contents) {type : Int16} (hlt : m.freeinode < NINODES)
    (htype : type = T_DIR ∨ type = T_FILE) (hempty : contents m.freeinode = []) :
    ∃ m', m.call (.ialloc type) = .ok m' ∧ m'.freeinode = m.freeinode + 1 ∧ Inv m' contents := by
  set din : Dinode := ⟨type, 0, 0, 1, 0, fun _ => 0⟩ with hdin
  obtain ⟨m', hcall, hinode, hblock, hdinode, hdisk⟩ :=
    State.winode_spec (m := { m with freeinode := m.freeinode + 1 }) hlt din
  have hdisk' : ∀ b, nmeta ≤ b → m'.disk b = m.disk b := fun b hb => hdisk b (nmeta_le b hb)
  have hnew : m'.dinode m.freeinode = din := by rw [hdinode, if_pos rfl]
  have hold : ∀ i, Made m.freeinode i → m'.dinode i = m.dinode i := by
    intro i hi
    rw [hdinode, if_neg (Nat.ne_of_lt hi.2)]
    rfl
  -- an inode made is the new one or an old one
  have hcases : ∀ i, Made m'.freeinode i → i = m.freeinode ∨ Made m.freeinode i := by
    intro i hi
    rw [hinode] at hi
    rcases Nat.lt_succ_iff_lt_or_eq.mp hi.2 with hlt | heq
    · exact Or.inr ⟨hi.1, hlt⟩
    · exact Or.inl heq
  refine ⟨m', ?_, hinode, ?_, ?_, fun i hi => ?_, fun i hi => ?_, fun i hi => ?_⟩
  · unfold State.call State.ialloc
    dsimp only
    rw [hcall]
    rfl
  · rw [hinode]
    exact hlt
  · rw [hblock]
    refine h.blocks.congr (by rw [hinode]; exact Nat.le_succ _) (fun i s hi => ?_) (fun i s hi hle => ?_) fun b hb =>
      hdisk' b (h.blocks.start_le.trans hb)
    · rw [hold i hi]
      exact h.blocks.at_congr hdisk' hi s
    · rcases hcases i hi with rfl | hi
      · rw [hnew]
        exact at_eq_zero (fun _ => rfl) s
      · exact absurd hi.2 (not_lt.mpr hle)
  · rcases hcases i hi with rfl | hi
    · rw [hnew]
      exact htype
    · rw [hold i hi]
      exact h.type i hi
  · rcases hcases i hi with rfl | hi
    · rw [hnew, hempty]
      rfl
    · rw [hold i hi]
      exact h.size i hi
  · rcases hcases i hi with rfl | hi
    · rw [hempty]
      exact ⟨Nat.zero_le _, nofun⟩
    · rw [hold i hi]
      exact h.blocks.holds_congr hdisk' hi (h.holds i hi)

/-- A step: **`iappend`** appends, or runs over the end of the array. -/
theorem Inv.iappend (h : Inv m contents) (hi : Made m.freeinode i) (p : List UInt8) :
    ((contents i).length + p.length ≤ NPLACES * BSIZE → ∃ m', m.call (.iappend i p) = .ok m' ∧
      m'.freeinode = m.freeinode ∧ Inv m' (update contents i (contents i ++ p))) ∧
    (NPLACES * BSIZE < (contents i).length + p.length →
      m.call (.iappend i p) = .error .overrun) := by
  have hlt : i < NINODES := hi.2.trans_le h.le
  have hloop := iappendLoop_spec h.le hi p.length m.dinode m (contents i) p le_rfl h.blocks (h.holds i hi)
  have hcall : m.call (.iappend i p) =
      (State.iappendLoop p.length m (m.dinode i) (contents i).length p >>= fun r =>
        r.2.2.winode i { r.2.1 with size := UInt32.ofNat r.1 }) := by
    show m.iappend i p = _
    unfold State.iappend
    rw [State.rinode_eq hlt]
    show (State.iappendLoop p.length m (m.dinode i) (m.dinode i).size.toNat p >>= _) = _
    rw [h.size i hi]
  rw [hcall]
  constructor
  swap
  · intro hfull
    rw [hloop.2 hfull]
    rfl
  intro hle
  obtain ⟨din, m', heq, hext, hholds⟩ := hloop.1 hle
  obtain ⟨m'', hwrite, hinode, hblock, hdinode, hdisk⟩ := State.winode_spec (m := m') hlt
    { din with size := UInt32.ofNat ((contents i).length + p.length) }
  have hdisk' : ∀ b, nmeta ≤ b → m''.disk b = m'.disk b := fun b hb => hdisk b (nmeta_le b hb)
  have hinode' : m''.freeinode = m.freeinode := hinode.trans hext.freeinode
  have hself : m''.dinode i = { din with size := UInt32.ofNat ((contents i).length + p.length) } := by
    rw [hdinode, if_pos rfl]
  have hother : ∀ j, Made m.freeinode j → j ≠ i → m''.dinode j = m.dinode j := by
    intro j hj hne
    rw [hdinode, if_neg hne]
    have hlow : iblock sb j < nmeta := (State.iblock_lt (hj.2.trans_le h.le)).trans (by decide)
    unfold State.dinode
    rw [hext.low _ hlow]
  have hblocks := hext.blocks
  -- the size of the record has no part in the places
  have hat : ∀ j s, Made m.freeinode j →
      (m''.dinode j).at m''.disk s = (update m.dinode i din j).at m'.disk s := by
    intro j s hj
    rw [← hblocks.at_congr hdisk' hj s]
    by_cases hne : j = i
    · subst hne
      rw [hself, update_self]
      cases s <;> rfl
    · rw [hother j hj hne, update_of_ne hne]
  have hkeep : ∀ j c, Made m.freeinode j → Holds (update m.dinode i din j) m'.disk c →
      Holds (m''.dinode j) m''.disk c := by
    intro j c hj hc
    exact hc.keep fun fbn hne => ⟨hat j _ hj, hdisk' _ (hblocks.range j _ hj hne).1⟩
  refine ⟨m'', ?_, hinode', ?_, ?_, fun j hj => ?_, fun j hj => ?_, fun j hj => ?_⟩
  · rw [heq]
    exact hwrite
  · rw [hinode']
    exact h.le
  · rw [hinode', hblock]
    exact hblocks.congr le_rfl hat (fun j s hj hle => absurd hj.2 (not_lt.mpr hle)) fun b hb =>
      hdisk' b (hblocks.start_le.trans hb)
  · rw [hinode'] at hj
    by_cases hne : j = i
    · subst hne
      rw [hself, hext.fields]
      exact h.type j hj
    · rw [hother j hj hne]
      exact h.type j hj
  · rw [hinode'] at hj
    by_cases hne : j = i
    · subst hne
      rw [hself, update_self, length_append]
      show (UInt32.ofNat _).toNat = _
      rw [UInt32.toNat_ofNat']
      unfold NPLACES NDIRECT NINDIRECT BSIZE at hle
      exact Nat.mod_eq_of_lt (by omega)
    · rw [hother j hj hne, update_of_ne hne]
      exact h.size j hj
  · rw [hinode'] at hj
    refine hkeep j _ hj ?_
    by_cases hne : j = i
    · subst hne
      rw [update_self, update_self]
      exact hholds
    · rw [update_of_ne hne, update_of_ne hne]
      exact hext.others j _ hj hne (h.holds j hj)

/-- The run: the calls append all data if there is room for those of each inode, and run over the
end of the array otherwise. -/
theorem Inv.run (h : Inv m contents) {ops : List Op} (hops : Valid m.freeinode ops)
    (hlater : ∀ i, ¬ Made m.freeinode i → contents i = []) :
    ((∀ i, (contents i ++ appended i ops).length ≤ NPLACES * BSIZE) →
      ∃ m', ops.foldlM State.call m = .ok m' ∧ Inv m' fun i => contents i ++ appended i ops) ∧
    ((∃ i, NPLACES * BSIZE < (contents i ++ appended i ops).length) →
      ops.foldlM State.call m = .error .overrun) := by
  induction ops generalizing m contents with
  | nil =>
    refine ⟨fun _ => ⟨m, rfl, ?_⟩, fun ⟨i, hi⟩ => ?_⟩
    · simpa [appended] using h
    · rw [appended, append_nil] at hi
      by_cases hmade : Made m.freeinode i
      · exact absurd (h.holds i hmade).fits (not_le.mpr hi)
      · rw [hlater i hmade] at hi
        exact absurd hi (Nat.not_lt_zero _)
  | cons op ops ih =>
    rw [foldlM_cons]
    cases op with
    | ialloc type =>
      obtain ⟨hlt, htype, hrest⟩ := hops
      have hempty := hlater m.freeinode fun hmade => lt_irrefl _ hmade.2
      obtain ⟨m', hcall, hinode, hinv⟩ := h.ialloc hlt htype hempty
      rw [hcall]
      refine ih hinv (by rwa [hinode]) fun i hi => hlater i fun hmade => hi ?_
      rw [hinode]
      exact ⟨hmade.1, hmade.2.trans (Nat.lt_succ_self _)⟩
    | iappend j p =>
      obtain ⟨hj, hrest⟩ := hops
      obtain ⟨hroom, hfull⟩ := h.iappend hj p
      have happended : ∀ i, contents i ++ appended i (.iappend j p :: ops) =
          update contents j (contents j ++ p) i ++ appended i ops := by
        intro i
        rw [appended, ← append_assoc]
        by_cases hi : i = j
        · rw [hi, if_pos rfl, update_self]
        · rw [if_neg (Ne.symm hi), update_of_ne hi, append_nil]
      simp only [happended]
      rcases Nat.lt_or_ge (NPLACES * BSIZE) ((contents j).length + p.length) with hlt | hle
      · rw [hfull hlt]
        refine ⟨fun hall => absurd (hall j) ?_, fun _ => rfl⟩
        rw [update_self, length_append, length_append]
        omega
      · obtain ⟨m', hcall, hinode, hinv⟩ := hroom hle
        rw [hcall]
        refine ih hinv (by rwa [hinode]) fun i hi => ?_
        rw [hinode] at hi
        rw [update_of_ne, hlater i hi]
        rintro rfl
        exact hi hj

end Calls

/-! ## What the kernel reads -/

/-- The kernel finds the file `c` in inode `inum` of the disk: `ilock` reads the inode, and `readi`
returns any part of `c` and changes nothing. -/
def ReadsBack (d : Disk) (inum : ℕ) (c : List UInt8) : Prop :=
  ∀ ip : Inode, ip.inum = inum → 1 ≤ ip.ref → ip.valid = false → ∃ ip', ilock sb d ip = some ip' ∧
    ∀ (f : Fs) (devsw : Devsw) (off n : ℕ), f.disk = d → f.inode inum = ip' → (∀ b, ¬ f.Locked b) →
      off ≤ c.length → off + n < 2 ^ 32 → f.readi sb devsw inum off n =
        .ok ((cint (min n (c.length - off)), (c.drop off).take n), f)

/-- The inode as `ilock` reads it. -/
def locked (d : Disk) (ip : Inode) : Inode :=
  let din := loadDinode (d (iblock sb ip.inum)) (ip.inum % IPB * DINODE)
  { ip with
    valid := true
    type := din.type
    major := din.major
    minor := din.minor
    nlink := din.nlink
    size := din.size
    addrs := fun k => UInt32.ofNat
      ((d (iblock sb ip.inum)).get (ip.inum % IPB * DINODE + 12 + 4 * k) 4) }

/-- The kernel's block map and that of `mkfs` agree. -/
theorem ptr_eq_at {f : Fs} {ip : Inode} (hdisk : f.disk = d) (hip : f.inode i = locked d ip)
    (hinum : ip.inum = i) {fbn : ℕ} (hfbn : fbn < NPLACES) :
    f.ptr i (dataSlot fbn) =
      (loadDinode (d (iblock sb i)) (i % IPB * DINODE)).at d (place fbn) := by
  subst hinum
  unfold dataSlot place
  by_cases hdirect : fbn < NDIRECT
  · rw [if_pos hdirect, if_pos hdirect]
    show ((f.inode ip.inum).addrs (Fin.ofNat _ fbn)).toNat = _
    rw [hip]
    have h₁ : (Fin.ofNat (NDIRECT + 2) fbn).val = fbn := Nat.mod_eq_of_lt (by omega)
    have h₂ : (Fin.ofNat (NDIRECT + 1) fbn).val = fbn := Nat.mod_eq_of_lt (by omega)
    show (UInt32.ofNat (Block.get _ (_ + 4 * (Fin.ofNat (NDIRECT + 2) fbn).val) 4)).toNat =
      (UInt32.ofNat (Block.get _ (_ + 4 * (Fin.ofNat (NDIRECT + 1) fbn).val) 4)).toNat
    rw [h₁, h₂]
  · have hind : fbn - NDIRECT < NINDIRECT := by
      unfold NPLACES NDIRECT NINDIRECT at *
      omega
    rw [if_neg hdirect, if_neg hdirect, if_pos hind]
    show childOf f.disk ((f.inode ip.inum).addrs (Fin.ofNat _ NDIRECT)).toNat _ = _
    rw [hip, hdisk]
    rfl

/-- **The kernel reads back** what an inode holds. -/
theorem Holds.readsBack (h : Holds din d c)
    (hdin : din = loadDinode (d (iblock sb i)) (i % IPB * DINODE))
    (htype : din.type = T_DIR ∨ din.type = T_FILE) (hsize : din.size.toNat = c.length) :
    ReadsBack d i c := by
  rintro ip hinum href hvalid
  have htype' : (locked d ip).type = din.type := by
    rw [hdin, ← hinum]
    rfl
  have hplain : (locked d ip).type ≠ 0 ∧ (locked d ip).type ≠ T_DEV ∧ (locked d ip).type ≠ T_EXTENT := by
    rw [htype']
    rcases htype with heq | heq <;> rw [heq] <;> decide
  refine ⟨locked d ip, ?_, ?_⟩
  · unfold ilock
    rw [if_neg (by omega), if_neg (by rw [hvalid]; exact nofun)]
    exact if_neg hplain.1
  intro f devsw off n hdisk hip hunlocked hoff hn
  have hsize' : (f.inode i).size.toNat = c.length := by
    rw [hip, ← hsize, hdin, ← hinum]
    rfl
  have hnear : c.length ≤ Fs.NEAR := h.fits
  have hptr : ∀ k, k < c.length → f.ptr i (dataSlot (k / BSIZE)) = din.at d (place (k / BSIZE)) := by
    intro k hk
    rw [hdin]
    refine ptr_eq_at hdisk hip hinum ?_
    have := h.fits
    unfold NPLACES NDIRECT NINDIRECT BSIZE at *
    omega
  have hmapped : f.MappedTo i (f.inode i).size.toNat := by
    intro bn hbn
    rw [hsize'] at hbn
    have hdiv : bn * BSIZE / BSIZE = bn := Nat.mul_div_cancel _ (by decide)
    constructor
    · have := h.fits
      unfold NPLACES NDIRECT NINDIRECT BSIZE at *
      unfold MAXMAP
      omega
    · have hne := hptr _ hbn
      rw [hdiv] at hne
      have hdata := (h.data _ hbn).1
      rw [hdiv] at hdata
      rwa [hne]
  -- the bytes of the file
  have hread : ∀ len, off + len ≤ c.length → (f.file i).read off len = (c.drop off).take len := by
    intro len hlen
    apply ext_getElem
    · simp [File.read]
      omega
    · intro k hk hk'
      have hlt : off + k < c.length := by
        rw [length_take, length_drop] at hk'
        omega
      obtain ⟨hne, hbyte⟩ := h.data _ hlt
      have hbn := hmapped ((off + k) / BSIZE) (by rw [hsize']; unfold BSIZE; omega)
      simp only [File.read, getElem_map, getElem_range, getElem_take, getElem_drop]
      show f.content i (off + k) = _
      unfold Fs.content
      rw [if_pos hbn, hptr _ hlt, hdisk, hbyte, getD_eq_getElem _ _ hlt]
  have hpost : Post (f.readi sb devsw i off n) _ _ := Fs.readi_mapped devsw
    (by rw [hip]; exact hplain.2.1) (by rw [hip]; exact hplain.2.2) hmapped
    (by rw [hsize']; exact hoff) hn
  rw [hsize'] at hpost
  obtain ⟨⟨v, g⟩, hcall, hv, -, hg⟩ := hpost.exists_ok fun e he => by
    obtain ⟨b, hb⟩ := he.2.2 hnear
    exact hunlocked b hb
  have hgf : g = f := hg hnear
  have hv' : v = (cint (min n (c.length - off)), (c.drop off).take n) := by
    rw [show v = _ from hv, hread _ (by omega)]
    congr 1
    rw [take_eq_take_iff, length_drop]
    omega
  rw [hcall, hv', hgf]

/-- The block is in a place of the inode. -/
def Belongs (m : State) (i b : ℕ) : Prop := b ≠ 0 ∧ ∃ t, (m.dinode i).at m.disk t = b

/-- **The image is what the kernel takes it for**, also after `balloc`. -/
structure Readable (m : State) (contents : ℕ → List UInt8) : Prop where
  reads : ∀ i, Made m.freeinode i → ReadsBack m.disk i (contents i)
  unshared : ∀ i j b, Made m.freeinode i → Made m.freeinode j → Belongs m i b → Belongs m j b → i = j
  below : ∀ i b, Made m.freeinode i → Belongs m i b → b < m.freeblock
  balloc : ∀ m', m.balloc m.freeblock = .ok m' →
    (∀ i, Made m.freeinode i → ReadsBack m'.disk i (contents i)) ∧
    ∀ i b, Made m.freeinode i → Belongs m i b → marked sb m'.disk b = true

/-- The bits that `balloc` sets. -/
theorem bit_foldl_setBit {used : ℕ} (hused : used ≤ BPB) (b : ℕ) :
    ((range used).foldl Block.setBit Block.zero).bit b = true ↔ b < used := by
  induction used with
  | zero =>
    rw [Block.bit_eq_testBit]
    simp
  | succ used ih =>
    rw [range_succ, foldl_append, foldl_cons, foldl_nil,
      Block.bit_setBit _ (by omega), Bool.or_eq_true, decide_eq_true_eq, ih (by omega)]
    omega

theorem Inv.readable {m : State} {contents : ℕ → List UInt8} (h : Inv m contents) :
    Readable m contents := by
  have hbelow : ∀ i b, Made m.freeinode i → Belongs m i b → b < m.freeblock := by
    rintro i b hi ⟨hne, s, rfl⟩
    exact (h.blocks.range i s hi hne).2
  refine ⟨fun i hi => (h.holds i hi).readsBack rfl (h.type i hi) (h.size i hi), ?_, hbelow, ?_⟩
  · rintro i j b hi hj ⟨hne, s, rfl⟩ ⟨-, t, heq⟩
    exact (h.blocks.unshared i j s t hi hj hne heq.symm).1
  · intro m' hm'
    unfold State.balloc at hm'
    split at hm'
    next hused =>
      cases hm'
      constructor
      · intro i hi
        -- the bitmap is neither an inode block nor a data block
        have hdisk : ∀ b, nmeta ≤ b → (m.wsect sb.bmapstart
            ((range m.freeblock).foldl Block.setBit Block.zero)).disk b = m.disk b := by
          intro b hb
          refine update_of_ne ?_ _ _
          rintro rfl
          exact absurd hb (by decide)
        have hlow := State.iblock_lt (hi.2.trans_le h.le)
        refine (h.blocks.holds_congr hdisk hi (h.holds i hi)).readsBack ?_ (h.type i hi) (h.size i hi)
        unfold State.dinode State.wsect
        simp only [update_of_ne (Nat.ne_of_lt hlow)]
      · intro i b hi hb
        have hlt := hbelow i b hi hb
        have hbpb : b < BPB := hlt.trans hused
        have hblock : bblock sb b = sb.bmapstart := by
          unfold bblock
          rw [Nat.div_eq_of_lt hbpb, Nat.zero_add]
        unfold marked State.wsect
        simp only [hblock, update_self, Nat.mod_eq_of_lt hbpb]
        exact (bit_foldl_setBit hused.le b).mpr hlt
    next => cases hm'

/-- **`mkfs` writes what the kernel reads**, if no assertion of `iappend` fails, if and only if the
data of each inode fit into the blocks that one indirect block can map. -/
theorem mkfs_readable_iff {ops : List Op} (hops : Valid 1 ops) :
    (run ops ≠ .error .assertion →
      ∃ m, run ops = .ok m ∧ Readable m fun i => appended i ops) ↔
    ∀ i, (appended i ops).length ≤ NPLACES * BSIZE := by
  have hrun := inv_start.run hops fun _ _ => rfl
  simp only [nil_append] at hrun
  constructor
  · intro hreadable i
    by_contra hlt
    have hover : run ops = .error .overrun := hrun.2 ⟨i, not_le.mp hlt⟩
    obtain ⟨m, hm, -⟩ := hreadable (by rw [hover]; exact nofun)
    rw [hover] at hm
    cases hm
  · intro hfits _
    obtain ⟨m, hm, hinv⟩ := hrun.1 hfits
    exact ⟨m, hm, hinv.readable⟩

/-- A file that is one byte too long for the indirect block. -/
def longFile : List Op := [.ialloc T_FILE, .iappend 1 (replicate (NPLACES * BSIZE + 1) 0)]

/-- No assertion fails, and the array `indirect` is read behind its end. -/
theorem not_mkfs_readable : Valid 1 longFile ∧ run longFile = .error .overrun ∧
    ¬ ∃ m, run longFile = .ok m ∧ Readable m fun i => appended i longFile := by
  have hops : Valid 1 longFile := ⟨by decide, Or.inr rfl, by decide, trivial⟩
  have hover : run longFile = .error .overrun := by
    refine (inv_start.run hops fun _ _ => rfl).2 ⟨1, ?_⟩
    rw [nil_append, longFile, appended, appended, appended, if_pos rfl, append_nil,
      length_replicate]
    exact Nat.lt_succ_self _
  refine ⟨hops, hover, ?_⟩
  rintro ⟨m, hm, -⟩
  rw [hover] at hm
  cases hm

/-- A directory and a file, appended to in turn. -/
def twoInodes : List Op :=
  [.ialloc T_DIR, .iappend 1 [1, 0, 46], .ialloc T_FILE, .iappend 2 [104, 105], .iappend 1 [2, 0, 97]]

/-- They are read back. -/
theorem mkfs_readable_two : ∃ m, run twoInodes = .ok m ∧ Readable m fun i => appended i twoInodes := by
  have hops : Valid 1 twoInodes := by
    refine ⟨by decide, Or.inl rfl, by decide, by decide, Or.inr rfl, by decide, by decide, trivial⟩
  have hfits : ∀ i, (appended i twoInodes).length ≤ NPLACES * BSIZE := by
    intro i
    simp only [appended, twoInodes]
    split_ifs <;> decide
  refine (mkfs_readable_iff hops).mpr hfits ?_
  obtain ⟨m, hm, -⟩ := (inv_start.run hops fun _ _ => rfl).1 hfits
  rw [show run twoInodes = .ok m from hm]
  exact nofun

end Mkfs
