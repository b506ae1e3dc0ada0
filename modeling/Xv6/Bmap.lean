/-
# `bmap`

The three lookups of `bmap`, and `bmap` itself.  A call fills the empty slots on the path to a
block of the file and returns the block; it stops only when there are not enough free blocks
for them, or when the buffer of the second-level block on the path is still locked.  `Done` and
`Stops` say this for any set of slots, and compose along a sequence of calls.
-/
import Xv6.BlockAlloc

open Function Outcome List

/-! ## Filling the slots of a path -/

namespace Fs

/-- The buffers of the second-level blocks `js` can be locked one after the other, each of them
staying locked. -/
def Open (f : Fs) (i : ℕ) (js : List (Fin NINDIRECT)) : Prop :=
  f.Tracks → js.Nodup ∧ ∀ j ∈ js, ¬ f.Locked (f.ptr i (.dbl j))

end Fs

/-- A call has filled the slots `T` of inode `i` and locked the buffers of the second-level
blocks `js`; the file is now `c`. -/
structure Done (sb : Superblock) (i : ℕ) (T : Finset Slot) (js : List (Fin NINDIRECT))
    (c : File) (f g : Fs) : Prop where
  change : ∃ A ⊆ T, Change sb i A js.toFinset c f g
  full : ∀ t ∈ T, g.ptr i t ≠ 0
  unlocked : f.HeldOk sb → f.Open i js

/-- A call that fills the slots `T` of inode `i` and locks the buffers of the second-level
blocks `js` stops: for want of free blocks, or at a buffer that is locked. -/
def Stops (sb : Superblock) (i : ℕ) (T : Finset Slot) (js : List (Fin NINDIRECT)) (f : Fs)
    (e : Stop) : Prop :=
  (e = .panic "balloc: out of blocks" ∧ freeBlocks sb f.disk < f.need i T) ∨
  (e = .blocked ∧ (f.HeldOk sb → ¬ f.Open i js))

section Sequence

variable {sb : Superblock} {i : ℕ} {T U : Finset Slot} {js ks : List (Fin NINDIRECT)}
  {c d : File} {f g h : Fs} {e : Stop}

namespace Done

variable (hfg : Done sb i T js c f g)

include hfg

theorem own : g.Owned sb := by
  obtain ⟨A, -, hch⟩ := hfg.change
  exact hch.own

theorem live : f.Live i := by
  obtain ⟨A, -, hch⟩ := hfg.change
  exact hch.live

theorem live' : g.Live i := by
  obtain ⟨A, -, hch⟩ := hfg.change
  exact (hch.live_iff i).mpr hch.live

theorem heldOk (hf : f.HeldOk sb) : g.HeldOk sb := by
  obtain ⟨A, -, hch⟩ := hfg.change
  exact hch.heldOk hf

/-- What is needed now is free before, and what is left is free after. -/
theorem free_eq :
    f.need i T + freeBlocks sb g.disk = freeBlocks sb f.disk := by
  obtain ⟨A, hA, hch⟩ := hfg.change
  have hneed := hch.need_eq hA
  have hzero : g.need i T = 0 := by
    unfold Fs.need
    rw [Finset.card_eq_zero, Finset.filter_eq_empty_iff]
    exact hfg.full
  rw [hzero, add_zero] at hneed
  rw [← hneed, hch.free]

/-- More buffers can be locked before a call just when they can after it. -/
theorem open_append_iff (hf : f.HeldOk sb) :
    f.Open i (js ++ ks) ↔ g.Open i ks := by
  obtain ⟨A, hA, hch⟩ := hfg.change
  have hlive := hfg.live'
  have hzero : ¬ f.Locked 0 := fun h0 => absurd (hf 0 h0).1 (not_le.mpr sb.dataStart_pos)
  constructor
  · intro hopen htr
    obtain ⟨hnodup, hunlocked⟩ := hopen (hch.tracks.mp htr)
    refine ⟨(nodup_append.mp hnodup).2.1, ?_⟩
    intro j hj hlocked
    have hjs : j ∉ js := fun hjs => (nodup_append.mp hnodup).2.2 j hjs j hj rfl
    rcases (hch.locked _).mp hlocked with hold | ⟨-, k, hk, heq⟩
    · by_cases hjA : Slot.dbl j ∈ A
      · -- the block is new, so it was not locked before
        have hfree := (hch.filled _ hjA).2.2
        rw [(hf _ hold).2.2.1] at hfree
        exact absurd hfree (by simp)
      · rw [hch.kept _ hjA] at hold
        exact hunlocked j (mem_append_right _ hj) hold
    · obtain ⟨-, hslot⟩ := hch.own.unshared i i _ _ hlive hlive (hch.leaked k hk) heq
      rw [Slot.dbl.injEq] at hslot
      exact hjs (hslot ▸ mem_toFinset.mp hk)
  · intro hopen htr
    obtain ⟨hnodup, hunlocked⟩ := hopen (hch.tracks.mpr htr)
    obtain ⟨hnodup', hunlocked'⟩ := hfg.unlocked hf htr
    refine ⟨nodup_append.mpr ⟨hnodup', hnodup, ?_⟩, ?_⟩
    · rintro j hj k hk rfl
      exact hunlocked j hk
        ((hch.locked _).mpr (Or.inr ⟨htr, j, mem_toFinset.mpr hj, rfl⟩))
    · intro j hj hlocked
      rcases mem_append.mp hj with hj | hj
      · exact hunlocked' j hj hlocked
      · by_cases hjA : Slot.dbl j ∈ A
        · rw [(hch.filled _ hjA).1] at hlocked
          exact hzero hlocked
        · apply hunlocked j hj
          rw [hch.kept _ hjA]
          exact (hch.locked _).mpr (Or.inl hlocked)

/-- **One call after another.** -/
theorem trans (hgh : Done sb i U ks d g h) :
    Done sb i (T ∪ U) (js ++ ks) d f h := by
  obtain ⟨A, hA, hch⟩ := hfg.change
  obtain ⟨B, hB, hch'⟩ := hgh.change
  refine ⟨⟨A ∪ B, Finset.union_subset_union hA hB, ?_⟩, ?_, ?_⟩
  · rw [toFinset_append]
    exact hch.trans hch'
  · intro t ht
    rcases Finset.mem_union.mp ht with ht | ht
    · exact hch'.ptr_ne_of_ne (hfg.full t ht)
    · exact hgh.full t ht
  · intro hf
    exact (hfg.open_append_iff hf).mpr (hgh.unlocked (hfg.heldOk hf))

/-- A call stops where its second part stops. -/
theorem stops (hstop : Stops sb i U ks g e) :
    Stops sb i (T ∪ U) (js ++ ks) f e := by
  obtain ⟨A, hA, hch⟩ := hfg.change
  rcases hstop with ⟨rfl, hlt⟩ | ⟨rfl, hblocked⟩
  · have hneed := hch.need_eq (hA.trans Finset.subset_union_left : A ⊆ T ∪ U)
    have hmono := g.need_mono i (Finset.subset_union_right : U ⊆ T ∪ U)
    have hfree := hch.free
    exact Or.inl ⟨rfl, by omega⟩
  · refine Or.inr ⟨rfl, fun hf hopen => ?_⟩
    exact hblocked (hfg.heldOk hf) ((hfg.open_append_iff hf).mp hopen)

end Done

/-- A call stops where its first part stops. -/
theorem Stops.left (hstop : Stops sb i T js f e) : Stops sb i (T ∪ U) (js ++ ks) f e := by
  rcases hstop with ⟨rfl, hlt⟩ | ⟨rfl, hblocked⟩
  · exact Or.inl ⟨rfl, hlt.trans_le (f.need_mono i Finset.subset_union_left)⟩
  · refine Or.inr ⟨rfl, fun hf hopen => hblocked hf fun htr => ?_⟩
    obtain ⟨hnodup, hunlocked⟩ := hopen htr
    exact ⟨(nodup_append.mp hnodup).1, fun j hj => hunlocked j (mem_append_left _ hj)⟩

/-- Doing nothing. -/
theorem Done.refl (hown : f.Owned sb) (hi : f.Live i) :
    Done sb i ∅ [] (f.file i) f f where
  change := ⟨∅, Finset.Subset.refl _, Change.refl hown hi⟩
  full t ht := absurd ht (Finset.notMem_empty t)
  unlocked _ _ := ⟨nodup_nil, fun _ hj => absurd hj not_mem_nil⟩

end Sequence

/-! ## Looking a slot up -/

section Lookup

variable {sb : Superblock} {i : ℕ} {f : Fs}

variable {s : Slot}

/-- A slot that holds a block is left alone. -/
theorem Done.single_of_ne (hown : f.Owned sb) (hi : f.Live i) (hs : f.ptr i s ≠ 0) :
    Done sb i {s} [] (f.file i) f f where
  change := ⟨∅, Finset.empty_subset _, Change.refl hown hi⟩
  full t ht := by
    rw [Finset.mem_singleton] at ht
    rwa [ht]
  unlocked _ _ := ⟨nodup_nil, fun _ hj => absurd hj not_mem_nil⟩

/-- An empty slot is filled. -/
theorem Allocates.done {a : ℕ} {g : Fs} (hsb : sb.Layout) (hown : f.Owned sb) (hi : f.Live i)
    (h : Allocates sb i s a f g) :
    Done sb i {s} [] (f.file i) f g ∧ g.ptr i s = a := by
  have hptr : g.ptr i s = a := by
    rw [h.ptr_eq hsb hown hi hi, if_pos ⟨rfl, rfl⟩]
  refine ⟨⟨⟨{s}, Finset.Subset.refl _, h.change hsb hown hi⟩, ?_, ?_⟩, hptr⟩
  · intro t ht
    rw [Finset.mem_singleton] at ht
    rw [ht, hptr]
    exact Allocates.ne_zero hown h.first
  · intro _ _
    exact ⟨nodup_nil, fun _ hj => absurd hj not_mem_nil⟩

/-- One empty slot and no free block. -/
theorem stops_of_empty (hfree : freeBlocks sb f.disk = 0) (hs : f.ptr i s = 0) :
    Stops sb i {s} [] f (.panic "balloc: out of blocks") := by
  refine Or.inl ⟨rfl, ?_⟩
  rw [hfree]
  unfold Fs.need
  rw [Finset.filter_singleton, if_pos hs, Finset.card_singleton]
  exact Nat.zero_lt_one

variable (hsb : sb.Layout) (hown : f.Owned sb) (hi : f.Live i)
include hsb hown hi

/-- `addrAt` fills the slot if it is empty and returns its block. -/
theorem addrAt_post (k : Fin (NDIRECT + 2)) :
    Post (Fs.addrAt sb f i k)
      (fun r => Done sb i {.root k} [] (f.file i) f r.2 ∧ r.1 = r.2.ptr i (.root k))
      (Stops sb i {.root k} [] f) := by
  unfold Fs.addrAt
  by_cases hk : (f.inode i).addrs k = 0
  · rw [if_pos hk]
    have hptr : f.ptr i (.root k) = 0 := by
      show ((f.inode i).addrs k).toNat = 0
      rw [hk]
      rfl
    refine (Fs.balloc_post sb f).bind ?_ ?_
    · rintro ⟨a, g⟩ ⟨ha, hg⟩
      obtain rfl : g = f.allocated sb a := hg
      have halloc : Allocates sb i (.root k) a f
          ((f.allocated sb a).setAddr i k (UInt32.ofNat a)) := {
        first := ha
        empty := hptr
        fields := by
          simp [Fs.setAddr, Fs.allocated, Fs.setBlock, f.inum_eq]
        others := fun j hj => Fs.setInode_inode_of_ne _ _ hj
        roots := fun k' => by
          simp only [Fs.setAddr, Fs.setInode_inode_self]
          by_cases hkk : k' = k
          · rw [hkk, update_self, if_pos rfl]
          · rw [update_of_ne hkk, if_neg (fun hc => hkk (Slot.root.inj hc).symm)]
            rfl
        entry := fun p l hp => by simp [Slot.parent] at hp
        zeroed := Fs.allocated_disk_self
        same := fun b hb hba _ => Fs.allocated_disk_data ha hba hb
        marks := fun c hc => Fs.marked_allocated (Allocates.dataStart_le hown ha) hc
        low := fun b hb => Fs.allocated_disk_low hsb hown ha hb
        held := rfl }
      obtain ⟨hdone, hval⟩ := halloc.done hsb hown hi
      exact ⟨hdone, hval.symm⟩
    · intro e he
      rcases he.cases with ⟨rfl, hfree⟩ | ⟨rfl, hlocked⟩
      · exact stops_of_empty hfree hptr
      · exact Or.inr ⟨rfl, fun hf => absurd (fun b hb => ⟨(hf b hb).1, (hf b hb).2.2.1⟩) hlocked⟩
  · rw [if_neg hk]
    have hptr : f.ptr i (.root k) ≠ 0 := fun h => hk (UInt32.toNat_inj.mp h)
    exact ⟨Done.single_of_ne hown hi hptr, rfl⟩

/-- `entryAt` on the block of the slot `p` fills the entry `s` if it is empty and returns its
block; the buffer of `p` stays locked. -/
theorem entryAt_post {s p : Slot} {l : Fin NINDIRECT} (hs : s.parent = some (p, l))
    (hp : f.ptr i p ≠ 0) :
    Post (Fs.entryAt sb f (f.ptr i p) l)
      (fun r => ∃ g, r.2 = g.lock (f.ptr i p) ∧ ¬ f.Locked (f.ptr i p) ∧
        Done sb i {s} [] (f.file i) f g ∧ r.1 = g.ptr i s)
      (fun e => Stops sb i {s} [] f e ∨ e = .blocked ∧ f.Locked (f.ptr i p)) := by
  obtain ⟨hpdata, hpsize⟩ := hown.in_data i p hi hp
  have hsval : f.ptr i s = (f.disk (f.ptr i p)).word l := by
    rw [Fs.ptr_of_parent f i hs, childOf, if_neg hp]
  unfold Fs.entryAt
  refine (Fs.bread_post f _).bind ?_ ?_
  · rintro g ⟨hunlocked, rfl⟩
    rw [Fs.lock_disk, ← hsval]
    by_cases hzero : f.ptr i s = 0
    · rw [if_pos hzero]
      refine (Fs.balloc_post sb _).bind ?_ ?_
      · rintro ⟨a, g⟩ ⟨ha, hg⟩
        obtain rfl : g = (f.lock (f.ptr i p)).allocated sb a := hg
        have ha : Fs.FirstFree sb f.disk a := ha
        have hpa : f.ptr i p ≠ a := Allocates.fresh hown ha hi p
        have hword : (f.allocated sb a).disk (f.ptr i p) = f.disk (f.ptr i p) :=
          Fs.allocated_disk_data ha hpa hpdata
        have halloc : Allocates sb i s a f ((f.allocated sb a).setBlock (f.ptr i p)
            (((f.allocated sb a).disk (f.ptr i p)).setWord l a)) := {
          first := ha
          empty := hzero
          fields := rfl
          others := fun _ _ => rfl
          roots := fun k => by
            have hne : s ≠ .root k := by
              rintro rfl
              simp [Slot.parent] at hs
            rw [if_neg hne]
            rfl
          entry := fun q m hq => by
            obtain ⟨rfl, rfl⟩ : p = q ∧ l = m := by simpa [hs] using hq
            refine ⟨hp, ?_⟩
            rw [← hword]
            exact update_self _ _ _
          zeroed := by
            show update _ _ _ a = _
            rw [update_of_ne hpa.symm]
            exact Fs.allocated_disk_self
          same := fun b hb hba hbp => by
            show update _ _ _ b = _
            rw [update_of_ne (hbp p l hs)]
            exact Fs.allocated_disk_data ha hba hb
          marks := fun c hc => by
            rw [← Fs.marked_allocated (Allocates.dataStart_le hown ha) hc]
            apply marked_congr
            have := Superblock.bblock_lt hc
            exact update_of_ne (by omega) _ _
          low := fun b hb => by
            have h1 := hsb.inodestart_lt
            have h2 := sb.bmapstart_lt
            show update _ _ _ b = _
            rw [update_of_ne (by omega)]
            exact Fs.allocated_disk_low hsb hown ha hb
          held := rfl }
        obtain ⟨hdone, hval⟩ := halloc.done hsb hown hi
        exact ⟨_, rfl, hunlocked, hdone, hval.symm⟩
      · intro e he
        rcases he.cases with ⟨rfl, hfree⟩ | ⟨rfl, hlocked⟩
        · exact Or.inl (stops_of_empty hfree hzero)
        · refine Or.inl (Or.inr ⟨rfl, fun hf => absurd ?_ hlocked⟩)
          intro b hb
          rcases (Fs.locked_lock f _ b).mp hb with hb | ⟨-, rfl⟩
          · exact ⟨(hf b hb).1, (hf b hb).2.2.1⟩
          · exact ⟨hpdata, hown.ptr_marked i p hi hp⟩
    · rw [if_neg hzero]
      exact ⟨f, rfl, hunlocked, Done.single_of_ne hown hi hzero, rfl⟩
  · intro e he
    exact Or.inr he

end Lookup

/-! ## `bmap` -/

/-- The slots on the way to block `bn` of a file. -/
def path (bn : ℕ) : Finset Slot :=
  if bn < NDIRECT then {.root (Fin.ofNat _ bn)}
  else if bn - NDIRECT < NINDIRECT then {.indirect} ∪ {.ind (Fin.ofNat _ (bn - NDIRECT))}
  else {.doubly} ∪ ({.dbl (Fin.ofNat _ ((bn - NDIRECT - NINDIRECT) / NINDIRECT))} ∪
    {.leaf (Fin.ofNat _ ((bn - NDIRECT - NINDIRECT) / NINDIRECT))
      (Fin.ofNat _ ((bn - NDIRECT - NINDIRECT) % NINDIRECT))})

/-- The second-level block on the way to block `bn` of a file, if there is one. -/
def second (bn : ℕ) : List (Fin NINDIRECT) :=
  if bn < NDIRECT then []
  else if bn - NDIRECT < NINDIRECT then []
  else [Fin.ofNat _ ((bn - NDIRECT - NINDIRECT) / NINDIRECT)]

variable {sb : Superblock} {i : ℕ} {T : Finset Slot} {c : File} {f g : Fs}

theorem Done.file_eq {js : List (Fin NINDIRECT)} (h : Done sb i T js c f g) : g.file i = c := by
  obtain ⟨A, -, hch⟩ := h.change
  exact hch.file_self

/-- Locking the buffer of a second-level block and not releasing it. -/
theorem Change.lock {A : Finset Slot} (h : Change sb i A ∅ c f g) {j : Fin NINDIRECT}
    (hj : f.ptr i (.dbl j) ≠ 0) :
    Change sb i A {j} c f (g.lock (f.ptr i (.dbl j))) := by
  have hkeep : (g.lock (f.ptr i (.dbl j))).ptr i (.dbl j) = f.ptr i (.dbl j) := h.ptr_eq_of_ne hj
  have htracks : g.held ≠ none ↔ f.held ≠ none := h.tracks
  exact {
    live := h.live
    own := ⟨h.own.inum_lt, h.own.meta_marked, h.own.unshared, h.own.in_data, h.own.ptr_marked⟩
    fields := h.fields
    others := h.others
    filled := h.filled
    kept := h.kept
    ptr_others := h.ptr_others
    file_self := h.file_self
    file_others := h.file_others
    marks := h.marks
    free := h.free
    tracks := by
      unfold Fs.Tracks Fs.lock
      rw [← htracks]
      simp
    locked := fun b => by
      rw [Fs.locked_lock, h.locked, h.tracks]
      simp [hkeep, eq_comm]
    leaked := fun k hk => by
      rw [Finset.mem_singleton] at hk
      rw [hk, hkeep]
      exact hj
    low := h.low }

theorem Done.lock (h : Done sb i T [] c f g) {j : Fin NINDIRECT} (hj : f.ptr i (.dbl j) ≠ 0)
    (hunlocked : ¬ f.Locked (f.ptr i (.dbl j))) :
    Done sb i T [j] c f (g.lock (f.ptr i (.dbl j))) := by
  obtain ⟨A, hA, hch⟩ := h.change
  refine ⟨⟨A, hA, hch.lock hj⟩, h.full, fun _ _ => ⟨nodup_singleton j, ?_⟩⟩
  intro k hk
  rw [mem_singleton] at hk
  rwa [hk]

/-- A buffer that was not locked is released again. -/
theorem Done.brelse_lock (h : Done sb i T [] c f g) {b : ℕ} (hb : ¬ f.Locked b) : (g.lock b).brelse b = g := by
  obtain ⟨A, -, hch⟩ := h.change
  apply Fs.brelse_lock
  intro hlocked
  rcases (hch.locked b).mp hlocked with h | ⟨-, j, hj, -⟩
  · exact hb h
  · exact absurd hj (Finset.notMem_empty j)

/-- **`bmap`** fills the slots on the path to block `bn` and returns the block, unless there are
too few free blocks or the second-level block is locked. -/
theorem bmap_post {f : Fs} (hsb : sb.Layout) (hown : f.Owned sb) (hi : f.Live i) {bn : ℕ}
    (hbn : bn < MAXMAP) :
    Post (Fs.bmap sb f i bn)
      (fun r => Done sb i (path bn) (second bn) (f.file i) f r.2 ∧
        r.1 = r.2.ptr i (dataSlot bn))
      (Stops sb i (path bn) (second bn) f) := by
  unfold Fs.bmap path second dataSlot
  rw [if_neg hi.2]
  by_cases hdirect : bn < NDIRECT
  · simp only [if_pos hdirect]
    exact addrAt_post hsb hown hi _
  simp only [if_neg hdirect]
  by_cases hind : bn - NDIRECT < NINDIRECT
  · simp only [if_pos hind]
    refine (addrAt_post hsb hown hi _).bind ?_ (fun e he => he.left)
    rintro ⟨b, g⟩ ⟨hdone, hb⟩
    obtain rfl : b = g.ptr i .indirect := hb
    have hne : g.ptr i .indirect ≠ 0 := hdone.full _ (Finset.mem_singleton_self _)
    have hentry : (bn - NDIRECT) = (Fin.ofNat NINDIRECT (bn - NDIRECT)).val :=
      (Nat.mod_eq_of_lt hind).symm
    have hpost := entryAt_post (l := Fin.ofNat NINDIRECT (bn - NDIRECT))
      (s := .ind (Fin.ofNat NINDIRECT (bn - NDIRECT))) hsb hdone.own hdone.live' rfl hne
    rw [← hentry, hdone.file_eq] at hpost
    refine hpost.bind ?_ ?_
    · rintro ⟨addr, h⟩ ⟨k, hk, hunlocked, hdone', haddr⟩
      obtain rfl : h = k.lock _ := hk
      refine ⟨?_, ?_⟩
      · show Done _ _ _ _ _ _ ((k.lock _).brelse _)
        rw [hdone'.brelse_lock hunlocked]
        exact hdone.trans hdone'
      · exact haddr
    · rintro e (he | ⟨rfl, hlocked⟩)
      · exact hdone.stops he
      · -- the buffer of the indirect block is never left locked
        refine Or.inr ⟨rfl, fun hf => ?_⟩
        obtain ⟨j, hj⟩ := (hdone.heldOk hf _ hlocked).2.2.2 i .indirect hdone.live' rfl
        exact absurd hj (by simp)
  simp only [if_neg hind]
  have hdbl := doubly_lt hbn
  rw [if_pos hdbl]
  set q := (bn - NDIRECT - NINDIRECT) / NINDIRECT with hq
  set r := (bn - NDIRECT - NINDIRECT) % NINDIRECT with hr
  have hqval : q = (Fin.ofNat NINDIRECT q).val := by
    refine (Nat.mod_eq_of_lt ?_).symm
    unfold NDOUBLY_INDIRECT at hdbl
    unfold NINDIRECT at *
    omega
  have hrval : r = (Fin.ofNat NINDIRECT r).val :=
    (Nat.mod_eq_of_lt (Nat.mod_lt _ (by norm_num))).symm
  refine (addrAt_post hsb hown hi _).bind ?_ (fun e he => he.left)
  rintro ⟨b, g⟩ ⟨hdone, hb⟩
  obtain rfl : b = g.ptr i .doubly := hb
  have hne : g.ptr i .doubly ≠ 0 := hdone.full _ (Finset.mem_singleton_self _)
  have hpost := entryAt_post (l := Fin.ofNat NINDIRECT q) (s := .dbl (Fin.ofNat NINDIRECT q))
    hsb hdone.own hdone.live' rfl hne
  rw [← hqval, hdone.file_eq] at hpost
  refine hpost.bind ?_ ?_
  · rintro ⟨b', h⟩ ⟨k, hk, hunlocked, hdone', hb'⟩
    obtain rfl : h = k.lock _ := hk
    obtain rfl : b' = k.ptr i (.dbl (Fin.ofNat NINDIRECT q)) := hb'
    show Post (Fs.entryAt sb ((k.lock _).brelse _) _ _) _ _
    rw [hdone'.brelse_lock hunlocked]
    have hne' : k.ptr i (.dbl (Fin.ofNat NINDIRECT q)) ≠ 0 :=
      hdone'.full _ (Finset.mem_singleton_self _)
    have hpost' := entryAt_post (l := Fin.ofNat NINDIRECT r)
      (s := .leaf (Fin.ofNat NINDIRECT q) (Fin.ofNat NINDIRECT r))
      hsb hdone'.own hdone'.live' rfl hne'
    rw [← hrval, hdone'.file_eq] at hpost'
    refine hpost'.mono ?_ ?_
    · rintro ⟨addr, h⟩ ⟨m, hm, hunlocked', hdone'', haddr⟩
      obtain rfl : h = m.lock _ := hm
      exact ⟨hdone.trans (hdone'.trans (hdone''.lock hne' hunlocked')), haddr⟩
    · rintro e (he | ⟨rfl, hlocked⟩)
      · exact hdone.stops (hdone'.stops (Stops.left (U := ∅) he))
      · refine hdone.stops (hdone'.stops (Or.inr ⟨rfl, fun hf hopen => ?_⟩))
        exact (hopen hlocked.tracks).2 _ (mem_singleton_self _) hlocked
  · rintro e (he | ⟨rfl, hlocked⟩)
    · exact hdone.stops he.left
    · refine Or.inr ⟨rfl, fun hf => ?_⟩
      obtain ⟨j, hj⟩ := (hdone.heldOk hf _ hlocked).2.2.2 i .doubly hdone.live' rfl
      exact absurd hj (by simp)

/-- Past the range it can map, `bmap` panics. -/
theorem bmap_of_ge (sb : Superblock) {f : Fs} (hi : (f.inode i).type ≠ T_EXTENT) {bn : ℕ}
    (hbn : MAXMAP ≤ bn) :
    Fs.bmap sb f i bn = .error (.panic "bmap: out of range") := by
  unfold MAXMAP at hbn
  unfold Fs.bmap NDIRECT NINDIRECT NDOUBLY_INDIRECT
  rw [if_neg hi, if_neg (by omega), if_neg (by omega), if_neg (by omega)]
