/-
# Looking up and writing directory entries

What `dirlookup` answers and what a written entry leaves, over the table that the entries of a
directory are.  Where no buffer is locked and at most one entry lies behind the blocks of the indirect
block, `dirlookup` answers with the entry of the name (`answer_eq`).  In any state, a lookup that
returns has done so (`dirlookup_post`).
-/
import Xv6.Directory

open Outcome Finset

namespace Fs

/-! ## The inode cache -/

/-- `iget` finds inode `inum` in the cache, or an entry for it. -/
def Room (sb : Superblock) (f : Fs) (inum : ℕ) : Prop :=
  0 < (f.inode inum).ref ∨ ((List.range sb.ninodes).countP fun j => 0 < (f.inode j).ref) < NINODE

instance (sb : Superblock) (f : Fs) (inum : ℕ) : Decidable (f.Room sb inum) := by
  unfold Room
  infer_instance

theorem room_congr {sb : Superblock} {f g : Fs} (h : ∀ i, (g.inode i).ref = (f.inode i).ref)
    (inum : ℕ) : g.Room sb inum ↔ f.Room sb inum := by
  unfold Room
  simp only [h]

/-- Only the entry of inode `inum` changes. -/
structure Took (f : Fs) (inum : ℕ) (g : Fs) : Prop where
  disk : g.disk = f.disk
  held : g.held = f.held
  others : ∀ j, j ≠ inum → g.inode j = f.inode j
  entry : 0 < (f.inode inum).ref ∧ g.inode inum = { f.inode inum with ref := (f.inode inum).ref + 1 } ∨
    (f.inode inum).ref = 0 ∧ g.inode inum = { f.inode inum with ref := 1, valid := false }

theorem iget_post (sb : Superblock) {f : Fs} (hrefs : ∀ i, 0 ≤ (f.inode i).ref) (inum : ℕ) :
    Post (iget sb f inum) (fun g => f.Room sb inum ∧ f.Took inum g)
      (fun e => e = .panic "iget: no inodes" ∧ ¬ f.Room sb inum) := by
  have hinum := f.inum_eq inum
  unfold iget Room
  by_cases href : 0 < (f.inode inum).ref
  · rw [if_pos href]
    refine ⟨Or.inl href, rfl, rfl, fun j hj => setInode_inode_of_ne f _ hj, Or.inl ⟨href, ?_⟩⟩
    rw [setInode_inode_self]
    simp only [hinum]
  · rw [if_neg href]
    by_cases hfull : NINODE ≤ (List.range sb.ninodes).countP fun j => 0 < (f.inode j).ref
    · rw [if_pos hfull]
      exact ⟨rfl, not_or.mpr ⟨href, not_lt.mpr hfull⟩⟩
    · rw [if_neg hfull]
      refine ⟨Or.inr (not_le.mp hfull), rfl, rfl, fun j hj => setInode_inode_of_ne f _ hj, Or.inr ⟨?_, ?_⟩⟩
      · exact le_antisymm (not_lt.mp href) (hrefs inum)
      · rw [setInode_inode_self]
        simp only [hinum]

/-- Nothing has changed: the copy of an inode without references may have to be read again. -/
structure Unchanged (f g : Fs) : Prop where
  disk : g.disk = f.disk
  held : g.held = f.held
  inode : ∀ i, 0 < (f.inode i).ref → g.inode i = f.inode i
  unused : ∀ i, g.inode i = { f.inode i with valid := (g.inode i).valid }

/-- **A reference that is taken and given back** leaves nothing behind. -/
theorem Took.iput (sb : Superblock) {f g : Fs} {inum : ℕ} (h : f.Took inum g) :
    ∃ g', iput sb g inum = .ok g' ∧ f.Unchanged g' := by
  have hkept : ¬ ((g.inode inum).valid ∧ (g.inode inum).nlink = 0 ∧ (g.inode inum).ref = 1) := by
    rcases h.entry with ⟨hpos, heq⟩ | ⟨-, heq⟩
    · rw [heq]
      rintro ⟨-, -, href⟩
      exact absurd (show (f.inode inum).ref + 1 = 1 from href) (by omega)
    · rw [heq]
      rintro ⟨hvalid, -⟩
      exact Bool.false_ne_true hvalid
  refine ⟨g.setInode inum { g.inode inum with ref := (g.inode inum).ref - 1 }, ?_, ?_⟩
  · unfold Fs.iput
    rw [if_neg hkept]
    rfl
  have hinum := f.inum_eq inum
  have hback : ∀ ip : Inode, ip.inum = inum →
      { ip with ref := ip.ref + 1 - 1, inum := inum } = ip := by
    rintro ip rfl
    rw [add_sub_cancel_right]
  have hnew : ∀ ip : Inode, ip.inum = inum → ip.ref = 0 →
      { ip with ref := 1 - 1, valid := false, inum := inum } = { ip with valid := false } := by
    rintro ip rfl hzero
    rw [sub_self, ← hzero]
  have hself : (0 < (f.inode inum).ref ∧ (g.setInode inum { g.inode inum with
        ref := (g.inode inum).ref - 1 }).inode inum = f.inode inum) ∨
      (f.inode inum).ref = 0 ∧ (g.setInode inum { g.inode inum with
        ref := (g.inode inum).ref - 1 }).inode inum = { f.inode inum with valid := false } := by
    rw [setInode_inode_self]
    rcases h.entry with ⟨hpos, heq⟩ | ⟨hzero, heq⟩
    · refine Or.inl ⟨hpos, ?_⟩
      rw [heq]
      exact hback _ hinum
    · refine Or.inr ⟨hzero, ?_⟩
      rw [heq]
      exact hnew _ hinum hzero
  have hothers : ∀ j, j ≠ inum → (g.setInode inum { g.inode inum with
      ref := (g.inode inum).ref - 1 }).inode j = f.inode j := fun j hj =>
    (setInode_inode_of_ne g _ hj).trans (h.others j hj)
  refine ⟨h.disk, h.held, fun i hi => ?_, fun i => ?_⟩
  · by_cases hi' : i = inum
    · subst hi'
      rcases hself with ⟨-, heq⟩ | ⟨hzero, -⟩
      · exact heq
      · omega
    · exact hothers i hi'
  · by_cases hi' : i = inum
    · subst hi'
      rcases hself with ⟨-, heq⟩ | ⟨-, heq⟩ <;> rw [heq]
    · rw [hothers i hi']

/-! ## Looking up -/

/-- A name as it is stored. -/
abbrev key (name : List UInt8) : List UInt8 := strncpy name DIRSIZ

theorem namecmp_eq_zero_iff (s t : List UInt8) : namecmp s t = 0 ↔ key s = key t :=
  strncmp_eq_zero_iff s t DIRSIZ

theorem named_iff {name de : List UInt8} : named name de = true ↔ ∃ v, slotOf de = some (key name, v) := by
  unfold named slotOf
  rw [decide_eq_true_iff, namecmp_eq_zero_iff]
  by_cases hzero : direntInum de = 0
  · rw [if_pos hzero]
    exact iff_of_false (fun h => h.1 hzero) nofun
  · rw [if_neg hzero]
    refine ⟨fun h => ⟨_, by rw [h.2]⟩, ?_⟩
    rintro ⟨v, hv⟩
    rw [Option.some.injEq, Prod.mk.injEq] at hv
    exact ⟨hzero, hv.1.symm⟩

/-- The entry of `name` in a directory: its number and its inode number. -/
def entry? (f : Fs) (dp : ℕ) (name : List UInt8) : Option (ℕ × ℕ) :=
  Slots.find (key name) 0 (f.file dp).slots

section Find

variable {f : Fs} {dp : ℕ} {name : List UInt8}

/-- The loop of `dirlookup` stops at the entry of the name. -/
theorem entry?_eq_some {k v : ℕ} (h : f.entry? dp name = some (k, v)) :
    k < (f.file dp).entries ∧ slotOf ((f.file dp).dirent k) = some (key name, v) ∧
      ∀ j < k, named name ((f.file dp).dirent j) = false := by
  obtain ⟨d, hd, hslot, hbefore⟩ := Slots.getElem?_of_find h
  obtain rfl : k = d := by omega
  have hk : k < (f.file dp).entries := by
    rw [← File.length_slots]
    exact (List.getElem?_eq_some_iff.mp hslot).1
  rw [File.getElem?_slots _ hk, Option.some.injEq] at hslot
  refine ⟨hk, hslot, fun j hj => Bool.eq_false_iff.mpr fun hnamed => ?_⟩
  obtain ⟨w, hw⟩ := named_iff.mp hnamed
  refine hbefore j hj w ?_
  rw [File.getElem?_slots _ (hj.trans hk), hw]

theorem entry?_eq_none (h : f.entry? dp name = none) {j : ℕ} (hj : j < (f.file dp).entries) :
    named name ((f.file dp).dirent j) = false := by
  refine Bool.eq_false_iff.mpr fun hnamed => ?_
  obtain ⟨w, hw⟩ := named_iff.mp hnamed
  refine Slots.find_eq_none_iff.mp h (List.mem_filterMap.mpr ⟨some (key name, w),
    List.mem_of_getElem? (i := j) ?_, rfl⟩)
  rw [File.getElem?_slots _ hj, hw]

theorem direntInum_of_slotOf {de k : List UInt8} {v : ℕ} (h : slotOf de = some (k, v)) :
    direntInum de = v := by
  unfold slotOf at h
  split at h
  · exact absurd h nofun
  · exact congrArg Prod.snd (Option.some.inj h)

end Find

/-- What `dirlookup` answers. -/
def answer (sb : Superblock) (devsw : Devsw) (f : Fs) (dp : ℕ) (name : List UInt8) :
    Except Stop (Option (ℕ × ℕ)) :=
  (dirlookup sb devsw f dp name).map Prod.fst

/-- What it should answer: the inode number and the byte offset of the entry, if the inode cache has
room for the inode. -/
def expected (sb : Superblock) (f : Fs) (dp : ℕ) (name : List UInt8) : Except Stop (Option (ℕ × ℕ)) :=
  match f.entry? dp name with
  | none => .ok none
  | some (k, v) =>
    if f.Room sb v then .ok (some (v, DIRENT * k)) else .error (.panic "iget: no inodes")

section Lookup

variable {sb : Superblock} (devsw : Devsw) {f : Fs} {dp : ℕ} {name : List UInt8} (hsb : sb.Layout)
  (hown : f.Owned sb) (hdir : f.Directory dp)
include hsb hown hdir

/-- A name that is there, where no buffer is locked. -/
theorem dirlookup_some (hfree : ∀ b, ¬ f.Locked b) {k v : ℕ} (hk : f.entry? dp name = some (k, v))
    (hfar : f.Tracks → k ≤ FAR) : ∃ g, Same f g ∧ ((f.Tracks → k < FAR) → g = f) ∧
      dirlookup sb devsw f dp name = (iget sb g v).map fun h => (some (v, DIRENT * k), h) := by
  obtain ⟨hlt, hslot, hbefore⟩ := entry?_eq_some hk
  obtain ⟨g, hscan, hsame, hgf⟩ := scan_ok devsw "dirlookup read" hsb hown hdir hfree
    hlt.le hbefore (fun _ => named_iff.mpr ⟨v, hslot⟩)
    (fun htr => by have := hfar htr; omega) (f.rounds dp) 0 (Nat.zero_le k)
    (by rw [rounds, hdir.size_eq]; unfold DIRENT; omega)
  refine ⟨g, hsame, fun hnear => hgf fun htr => ?_, ?_⟩
  · have := hnear htr
    omega
  · unfold dirlookup
    rw [if_neg (not_not.mpr hdir.type_eq), show (0 : ℕ) = DIRENT * 0 from rfl, hscan, if_pos hlt]
    show (iget sb g _ >>= _) = _
    rw [direntInum_of_slotOf hslot]
    rfl

/-- A name that is not there, where no buffer is locked. -/
theorem dirlookup_none (hfree : ∀ b, ¬ f.Locked b) (hnone : f.entry? dp name = none)
    (hfar : f.Tracks → (f.file dp).entries ≤ FAR + 1) : ∃ g, Same f g ∧
      ((f.Tracks → (f.file dp).entries ≤ FAR) → g = f) ∧
      dirlookup sb devsw f dp name = .ok (none, g) := by
  obtain ⟨g, hscan, hsame, hgf⟩ := scan_ok devsw "dirlookup read" hsb hown hdir hfree
    le_rfl (fun j hj => entry?_eq_none hnone hj) (fun h => absurd h (lt_irrefl _))
    (fun htr => by have := hfar htr; omega) (f.rounds dp) 0 (Nat.zero_le _)
    (by rw [rounds, hdir.size_eq]; unfold DIRENT; omega)
  refine ⟨g, hsame, fun hnear => hgf fun htr => ?_, ?_⟩
  · have := hnear htr
    omega
  · unfold dirlookup
    rw [if_neg (not_not.mpr hdir.type_eq), show (0 : ℕ) = DIRENT * 0 from rfl, hscan,
      if_neg (lt_irrefl _)]
    rfl

/-- **`dirlookup` answers what it should** in a directory with at most one entry behind the blocks of
the indirect block, where no buffer is locked. -/
theorem answer_eq (hrefs : ∀ i, 0 ≤ (f.inode i).ref) (hfree : ∀ b, ¬ f.Locked b)
    (hfar : f.Tracks → (f.file dp).entries ≤ FAR + 1) :
    answer sb devsw f dp name = expected sb f dp name := by
  unfold answer expected
  cases hentry : f.entry? dp name with
  | none =>
    obtain ⟨g, -, -, heq⟩ := dirlookup_none devsw hsb hown hdir hfree hentry hfar
    rw [heq]
    rfl
  | some kv =>
    obtain ⟨k, v⟩ := kv
    have hlt := (entry?_eq_some hentry).1
    obtain ⟨g, hsame, -, heq⟩ := dirlookup_some devsw hsb hown hdir hfree hentry
      (fun htr => by have := hfar htr; omega)
    have hroom : g.Room sb v ↔ f.Room sb v := room_congr (fun i => by rw [hsame.inode]) v
    have hpost := iget_post sb (f := g) (fun i => by rw [hsame.inode]; exact hrefs i) v
    rw [heq]
    show _ = if f.Room sb v then _ else _
    cases hget : iget sb g v with
    | ok h =>
      rw [if_pos (hroom.mp (hpost.of_ok hget).1)]
      rfl
    | error e =>
      obtain ⟨rfl, hnot⟩ := hpost.of_error hget
      rw [if_neg (mt hroom.mpr hnot)]
      rfl

/-- **A lookup that returns** answers what it should; if it went past entry `FAR - 1`, the buffer of
the second-level block was not locked and now is, and no entry was read after `FAR`. -/
theorem dirlookup_post (hrefs : ∀ i, 0 ≤ (f.inode i).ref) (hheld : f.HeldOk sb) :
    Post (dirlookup sb devsw f dp name)
      (fun r => expected sb f dp name = .ok r.1 ∧ ∃ g, Onward sb f g ∧
        (r.1 = none → r.2 = g) ∧ (∀ v off, r.1 = some (v, off) → g.Took v r.2) ∧
        (f.Tracks → FAR < (f.file dp).entries →
          (∀ j < FAR, named name ((f.file dp).dirent j) = false) →
          ¬ f.Stuck dp ∧ g.Stuck dp ∧
            ((f.file dp).entries = FAR + 1 ∨ named name ((f.file dp).dirent FAR) = true)))
      (fun _ => True) := by
  unfold dirlookup
  rw [if_neg (not_not.mpr hdir.type_eq), show (0 : ℕ) = DIRENT * 0 from rfl]
  refine (scan_post hsb _ f 0 hown hdir hheld ?_).bindAny ?_
  · rw [rounds, hdir.size_eq]
    unfold DIRENT
    omega
  rintro ⟨⟨off, de⟩, g⟩ hscan
  obtain ⟨k, -, hkn, hbefore, hstop, heq⟩ := hscan.found
  rw [max_eq_right (Nat.zero_le _)] at hkn
  have hfar : f.Tracks → FAR < (f.file dp).entries →
      (∀ j < FAR, named name ((f.file dp).dirent j) = false) → _ := fun htr hlt hfalse =>
    hscan.far htr (Nat.zero_le _) hlt fun j _ hj => hfalse j hj
  obtain ⟨rfl, rfl⟩ := Prod.mk.inj heq
  have hon : Onward sb f g := hscan.onward
  cases hentry : f.entry? dp name with
  | none =>
    -- the loop went through all entries
    have hk : ¬ k < (f.file dp).entries := fun hk => by
      rw [entry?_eq_none hentry hk] at hstop
      exact absurd (hstop hk) (by decide)
    rw [if_neg hk]
    refine ⟨by rw [expected, hentry], g, hon, fun _ => rfl, fun v off h => absurd h nofun, hfar⟩
  | some kv =>
    obtain ⟨k', v⟩ := kv
    obtain ⟨hlt, hslot, hbefore'⟩ := entry?_eq_some hentry
    have hnamed := named_iff.mpr ⟨v, hslot⟩
    obtain rfl : k = k' := by
      rcases lt_trichotomy k k' with h | h | h
      · rw [hbefore' k h] at hstop
        exact absurd (hstop (h.trans hlt)) (by decide)
      · exact h
      · rw [hbefore k' (Nat.zero_le _) h] at hnamed
        exact absurd hnamed (by decide)
    rw [if_pos hlt]
    refine (iget_post sb (f := g) (fun i => ?_) _).bindAny ?_
    · rw [hon.same.inode]
      exact hrefs i
    rintro h ⟨hroom, htook⟩
    rw [direntInum_of_slotOf hslot] at hroom htook ⊢
    have hroom' : f.Room sb v := (room_congr (fun i => by rw [hon.same.inode]) v).mp hroom
    refine ⟨?_, g, hon, fun h => absurd h nofun, ?_, hfar⟩
    · simp only [expected, hentry, if_pos hroom']
    · rintro w off heq
      obtain ⟨rfl, -⟩ := Prod.mk.inj (Option.some.inj heq)
      exact htook

/-- **A lookup that goes past entry `FAR` never returns**: the buffer that the read of this entry leaves
locked is needed for the next one. -/
theorem dirlookup_far (hfree : ∀ b, ¬ f.Locked b) (htr : f.Tracks)
    (hfar : FAR + 1 < (f.file dp).entries)
    (hbefore : ∀ j ≤ FAR, named name ((f.file dp).dirent j) = false) :
    dirlookup sb devsw f dp name = .error .blocked := by
  unfold dirlookup
  rw [if_neg (not_not.mpr hdir.type_eq), show (0 : ℕ) = DIRENT * 0 from rfl]
  have hpost : Post (scan sb devsw "dirlookup read" (named name) dp (f.rounds dp) f (DIRENT * 0)) _ _ :=
    scan_post hsb _ f 0 hown hdir (heldOk_of_free hfree) (by
      rw [rounds, hdir.size_eq]
      unfold DIRENT
      omega)
  generalize scan sb devsw "dirlookup read" (named name) dp (f.rounds dp) f (DIRENT * 0) = r at hpost ⊢
  cases r with
  | error e =>
    obtain rfl : e = .blocked := hpost
    rfl
  | ok r =>
    obtain ⟨-, -, hlast | hlast⟩ := hpost.far htr (Nat.zero_le _) (by omega) fun j _ hj => hbefore j hj.le
    · omega
    · rw [hbefore FAR le_rfl] at hlast
      exact absurd hlast Bool.false_ne_true

end Lookup

/-! ## Writing an entry -/

/-- The way to a block that is there. -/
theorem ptr_path_ne_zero {f : Fs} {i bn : ℕ} (h : f.ptr i (dataSlot bn) ≠ 0) {t : Slot}
    (ht : t ∈ path bn) : f.ptr i t ≠ 0 := by
  unfold dataSlot at h
  unfold path at ht
  split_ifs at h ht with hdirect hind
  · rw [mem_singleton.mp ht]
    exact h
  · rcases mem_union.mp ht with ht | ht
    · rw [mem_singleton.mp ht]
      exact (childOf_ne_zero h).1
    · rw [mem_singleton.mp ht]
      exact h
  · have hsecond := (childOf_ne_zero h).1
    rcases mem_union.mp ht with ht | ht
    · rw [mem_singleton.mp ht]
      exact (childOf_ne_zero hsecond).1
    · rcases mem_union.mp ht with ht | ht
      · rw [mem_singleton.mp ht]
        exact hsecond
      · rw [mem_singleton.mp ht]
        exact h

/-- A directory is not larger than the largest file that `bmap` can map. -/
theorem Directory.size_le {f : Fs} {dp : ℕ} (hdir : f.Directory dp) :
    DIRENT * (f.file dp).entries ≤ MAXMAP * BSIZE := by
  rw [← hdir.size_eq]
  by_contra hlt
  have hlast := hdir.mapped MAXMAP (not_le.mp hlt)
  exact absurd hlast.1 (lt_irrefl _)

section Write

variable {sb : Superblock} {devsw : Devsw} {f g : Fs} {dp k : ℕ} {de : List UInt8}

/-- Entry `k` of the directory has been written. -/
abbrev Wrote (sb : Superblock) (dp k : ℕ) (de : List UInt8) (f g : Fs) : Prop :=
  RangeDone sb dp (DIRENT * k) DIRENT ((f.file dp).write (DIRENT * k) de) f g

section

variable (h : Wrote sb dp k de f g)

include h

theorem Wrote.ref_eq (i : ℕ) : (g.inode i).ref = (f.inode i).ref := by
  obtain ⟨A, -, hch⟩ := h.done.change
  by_cases hi : i = dp
  · rw [hi, hch.fields]
  · rw [hch.others i hi]

theorem Wrote.type_eq : (g.inode dp).type = (f.inode dp).type := by
  obtain ⟨A, -, hch⟩ := h.done.change
  exact hch.type_eq dp

theorem Wrote.tracks : g.Tracks ↔ f.Tracks := by
  obtain ⟨A, -, hch⟩ := h.done.change
  exact hch.tracks

/-- An entry reached without the doubly indirect block leaves no buffer locked. -/
theorem Wrote.free (hfree : ∀ b, ¬ f.Locked b) (hnear : f.Tracks → k < FAR) (b : ℕ) : ¬ g.Locked b := by
  obtain ⟨A, -, hch⟩ := h.done.change
  intro hb
  rcases (hch.locked b).mp hb with hb | ⟨htr, j, hj, -⟩
  · exact hfree b hb
  · rw [seconds_dirent, second_of_near (near_iff.mpr (hnear htr)), List.toFinset_nil] at hj
    exact notMem_empty j hj

/-- A buffer that is locked stays so. -/
theorem Wrote.stuck (hheld : f.HeldOk sb) (hstuck : f.Stuck dp) :
    g.Stuck dp := by
  obtain ⟨A, -, hch⟩ := h.done.change
  have hne : f.ptr dp (.dbl (Fin.ofNat _ 0)) ≠ 0 := fun hzero => by
    have := (hheld _ hstuck.2).1
    rw [hzero] at this
    exact absurd this (not_le.mpr sb.dataStart_pos)
  refine ⟨hch.tracks.mpr hstuck.1, ?_⟩
  rw [hch.ptr_eq_of_ne hne]
  exact (hch.locked _).mpr (Or.inl hstuck.2)

end

/-- Entry `FAR` leaves the buffer of its second-level block locked. -/
theorem Wrote.far (h : Wrote sb dp FAR de f g) (htr : f.Tracks) : g.Stuck dp := by
  obtain ⟨A, -, hch⟩ := h.done.change
  refine ⟨hch.tracks.mpr htr, (hch.locked _).mpr (Or.inr ⟨htr, Fin.ofNat _ 0, ?_, rfl⟩)⟩
  rw [seconds_dirent, second_far le_rfl (Nat.le_succ _)]
  exact List.mem_toFinset.mpr (List.mem_singleton_self _)

theorem Wrote.size_eq (h : Wrote sb dp k de f g) (hde : de.length = DIRENT) :
    (g.file dp).size = max (f.file dp).size (DIRENT * k + DIRENT) := by
  rw [h.done.file_eq]
  exact (f.file dp).size_write hde

/-- **A directory stays one** if no name comes twice. -/
theorem Wrote.directory (h : Wrote sb dp k de f g) (hdir : f.Directory dp) (hde : de.length = DIRENT)
    (hk : k ≤ (f.file dp).entries) (hunique : (Slots.keys (g.file dp).slots).Nodup) :
    g.Directory dp where
  type_eq := h.type_eq.trans hdir.type_eq
  size_mod := by
    have hsize := hdir.size_mod
    rw [h.size_eq hde]
    unfold DIRENT at *
    omega
  mapped := by
    intro bn hbn
    rw [h.size_eq hde] at hbn
    obtain ⟨A, -, hch⟩ := h.done.change
    by_cases hold : bn * BSIZE < (f.file dp).size
    · obtain ⟨hlt, hptr⟩ := hdir.mapped bn hold
      exact ⟨hlt, hch.ptr_ne_of_ne hptr⟩
    · -- the entry is the first of a new block
      have hsize : (f.file dp).size = DIRENT * (f.file dp).entries := hdir.size_eq
      have hfits := h.fits (by decide)
      have hblock : bn = DIRENT * k / BSIZE := by
        unfold DIRENT BSIZE at *
        omega
      refine ⟨?_, ?_⟩
      · have hlt : bn * BSIZE < MAXMAP * BSIZE := by
          unfold DIRENT at *
          omega
        exact lt_of_mul_lt_mul_right hlt (Nat.zero_le _)
      · refine h.done.full _ ?_
        rw [slotsOf_dirent, hblock]
        exact dataSlot_mem_path _
  unique := hunique

variable (devsw) (hsb : sb.Layout) (hown : f.Owned sb) (hdir : f.Directory dp)
  (hde : de.length = DIRENT) (hk : k ≤ (f.file dp).entries)
include hsb hown hdir hde hk

theorem writei_dirent : Post (writei sb devsw f dp de (DIRENT * k))
    (fun r => r.1 = DIRENT ∧ Wrote sb dp k de f r.2) (RangeStops sb dp (DIRENT * k) DIRENT f) := by
  have hpost : Post (writei sb devsw f dp de (DIRENT * k)) _ _ :=
    writei_post hsb hown hdir.live hdir.ne_dev devsw de
  rw [hde] at hpost
  refine hpost.imp ?_
  rintro ⟨n, g⟩ (⟨hn, hdone⟩ | ⟨-, hlarge⟩)
  · exact ⟨hn, hdone⟩
  · have hsize := hdir.size_le
    have hle : DIRENT * k ≤ DIRENT * (f.file dp).entries := Nat.mul_le_mul_left _ hk
    unfold u32 MAXMAP MAXFILE BSIZE DIRENT at *
    omega

/-- An entry is written where no buffer is locked, if there are blocks for it. -/
theorem writei_dirent_ok (hfree : ∀ b, ¬ f.Locked b)
    (hgrow : k = (f.file dp).entries → DIRENT * k + DIRENT ≤ MAXMAP * BSIZE ∧
      f.need dp (slotsOf (blocksOf (DIRENT * k) DIRENT)) ≤ freeBlocks sb f.disk) :
    ∃ g, writei sb devsw f dp de (DIRENT * k) = .ok ((DIRENT : ℤ), g) ∧ Wrote sb dp k de f g := by
  have hsize := hdir.size_eq
  have hfits : DIRENT * k + DIRENT ≤ MAXMAP * BSIZE := by
    rcases Nat.eq_or_lt_of_le hk with heq | hlt
    · exact (hgrow heq).1
    · refine le_trans ?_ hdir.size_le
      exact Nat.mul_le_mul_left DIRENT hlt
  have hneed : f.need dp (slotsOf (blocksOf (DIRENT * k) DIRENT)) ≤ freeBlocks sb f.disk := by
    rcases Nat.eq_or_lt_of_le hk with heq | hlt
    · exact (hgrow heq).2
    · have hptr := (hdir.mapped (DIRENT * k / BSIZE) (by
        show _ < (f.inode dp).size.toNat
        rw [hsize]
        exact lt_of_le_of_lt (Nat.div_mul_le_self _ _) (Nat.mul_lt_mul_of_pos_left hlt (by decide)))).2
      rw [slotsOf_dirent, need, card_eq_zero.mpr]
      · exact Nat.zero_le _
      · exact filter_eq_empty_iff.mpr fun t ht => ptr_path_ne_zero hptr ht
  obtain ⟨⟨n, g⟩, heq, hn, hwrote⟩ := (writei_dirent devsw hsb hown hdir hde hk).exists_ok (by
    rintro e ((⟨-, hlt⟩ | ⟨-, hblocked⟩) | ⟨-, -, hlt⟩)
    · exact absurd hlt (not_lt.mpr hneed)
    · refine hblocked (heldOk_of_free hfree) ?_
      rw [seconds_dirent]
      exact open_second hfree dp _
    · exact absurd hlt (not_lt.mpr hfits))
  obtain rfl : n = DIRENT := hn
  exact ⟨g, heq, hwrote⟩

end Write

end Fs
