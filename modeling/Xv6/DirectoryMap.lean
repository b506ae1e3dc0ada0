/-
# Directories as finite maps

The laws of a finite map for `dirlookup`, `dirlink` and the entry-clearing step of `sys_unlink`, over
the table that the entries of a directory are.  They hold just under the conditions that are stated
here on the directory before the call:

* an inode number is stored in sixteen bits;
* `dirlink` gives back the inode it finds with `iput`, which waits for the lock of the inode; if that
  is the directory itself, the caller holds it;
* an entry behind the blocks of the indirect block can be read once, since `bmap` leaves the buffer of
  the second-level block locked;
* the inode cache has room for the inode that is found, and the disk for a directory that grows.
-/
import Xv6.DirectoryOps
import Xv6.WriteRead

open Outcome List Slots

namespace Fs

/-! ## The laws -/

section Laws

variable (sb : Superblock) (devsw : Devsw) (f : Fs) (dp : ℕ) (name : List UInt8) (inum : ℕ)

/-- The law of `dirlink`.  A name that `dirlookup` finds is not linked again, and nothing changes.  A
new name is then found with its inode number, in the first free entry or behind the last one; the
other names are looked up as before; and the directory grows only if no entry is free. -/
def LinkLaw : Prop :=
  match f.entry? dp name with
  | some (k, v) =>
    answer sb devsw f dp name = .ok (some (v, DIRENT * k)) ∧
      ∃ g, dirlink sb devsw f dp name inum = .ok (-1, g) ∧ f.Unchanged g
  | none =>
    answer sb devsw f dp name = .ok none ∧
      ∃ g, dirlink sb devsw f dp name inum = .ok (0, g) ∧
        answer sb devsw g dp name = .ok (some (inum, DIRENT * hole (f.file dp).slots)) ∧
        (∀ name', namecmp name' name ≠ 0 → answer sb devsw g dp name' = answer sb devsw f dp name') ∧
        (hole (f.file dp).slots < (f.file dp).entries → (g.inode dp).size = (f.inode dp).size)

/-- The law of the entry-clearing step of `sys_unlink`: the name is gone, the other names are looked
up as before, and the directory is as large as before, with a free entry no later than this one. -/
def ClearLaw : Prop :=
  ∀ k v, f.entry? dp name = some (k, v) → ∃ g, clearDirent sb devsw f dp (DIRENT * k) = .ok g ∧
    answer sb devsw g dp name = .ok none ∧
    (∀ name', namecmp name' name ≠ 0 → answer sb devsw g dp name' = answer sb devsw f dp name') ∧
    (g.inode dp).size = (f.inode dp).size ∧ hole (g.file dp).slots ≤ k

/-- When the law of `dirlink` holds. -/
def LinkCond : Prop :=
  match f.entry? dp name with
  | some (k, v) => v ≠ dp ∧ f.Room sb v ∧ (f.Tracks → k < FAR)
  | none =>
    inum < 2 ^ 16 ∧ f.Room sb inum ∧
      (f.Tracks → (f.file dp).entries ≤ FAR ∧ hole (f.file dp).slots < FAR) ∧
      (hole (f.file dp).slots = (f.file dp).entries →
        (f.inode dp).size.toNat + DIRENT ≤ MAXMAP * BSIZE ∧
        f.need dp (slotsOf (blocksOf (f.inode dp).size.toNat DIRENT)) ≤ freeBlocks sb f.disk)

/-- When the law of the entry-clearing step holds. -/
def ClearCond : Prop :=
  ∀ k v, f.entry? dp name = some (k, v) → f.Tracks → k < FAR ∧ (f.file dp).entries ≤ FAR + 1

end Laws

section Prove

variable {sb : Superblock} {devsw : Devsw} {f g : Fs} {dp : ℕ} {name : List UInt8} {inum : ℕ}

theorem expected_congr (hentry : g.entry? dp name = f.entry? dp name)
    (hrefs : ∀ i, (g.inode i).ref = (f.inode i).ref) : expected sb g dp name = expected sb f dp name := by
  unfold expected
  rw [hentry]
  cases f.entry? dp name with
  | none => rfl
  | some kv =>
    simp only [room_congr hrefs]

/-- A lookup that answers has returned. -/
theorem dirlookup_of_answer {a : Option (ℕ × ℕ)} (h : answer sb devsw f dp name = .ok a) :
    ∃ g, dirlookup sb devsw f dp name = .ok (a, g) := by
  obtain ⟨r, heq, rfl⟩ := map_eq_ok.mp h
  exact ⟨r.2, heq⟩

/-- The loop of `dirlink` stops at the first free entry. -/
theorem hole_eq {k : ℕ} (hk : k ≤ (f.file dp).entries)
    (hbefore : ∀ j < k, direntInum ((f.file dp).dirent j) ≠ 0)
    (hstop : k < (f.file dp).entries → direntInum ((f.file dp).dirent k) = 0) :
    k = hole (f.file dp).slots := by
  obtain ⟨hat, hnone⟩ := getElem?_hole (f.file dp).slots
  have hle := hole_le (f.file dp).slots
  rw [File.length_slots] at hat hle
  rcases lt_trichotomy k (hole (f.file dp).slots) with h | h | h
  · have hfree := hnone k h
    rw [File.getElem?_slots _ (h.trans_le hle), slotOf, if_pos (hstop (h.trans_le hle))] at hfree
    exact absurd rfl hfree
  · exact h
  · have hused := hat (h.trans_le hk)
    rw [File.getElem?_slots _ (h.trans_le hk), slotOf, if_neg (hbefore _ h)] at hused
    cases Option.some.inj hused

theorem direntInum_before_hole {j : ℕ} (hj : j < hole (f.file dp).slots) :
    direntInum ((f.file dp).dirent j) ≠ 0 := by
  have hle := hole_le (f.file dp).slots
  rw [File.length_slots] at hle
  intro hzero
  refine (getElem?_hole (f.file dp).slots).2 j hj ?_
  rw [File.getElem?_slots _ (hj.trans_le hle), slotOf, if_pos hzero]

theorem direntInum_hole (h : hole (f.file dp).slots < (f.file dp).entries) :
    direntInum ((f.file dp).dirent (hole (f.file dp).slots)) = 0 := by
  have hslot := (getElem?_hole (f.file dp).slots).1 (by rw [File.length_slots]; exact h)
  rw [File.getElem?_slots _ h, slotOf] at hslot
  by_contra hne
  rw [if_neg hne] at hslot
  cases Option.some.inj hslot

/-- **The table after `dirlink`.** -/
theorem Wrote.slots_put (h : Wrote sb dp (hole (f.file dp).slots) (dirent name inum) f g)
    (hdir : f.Directory dp) (hinum : inum ≠ 0) (hlt : inum < 2 ^ 16) :
    (g.file dp).slots = put (key name, inum) (f.file dp).slots := by
  have hmod : inum % 2 ^ 16 = inum := Nat.mod_eq_of_lt hlt
  have hslot : slotOf (dirent name inum) = some (key name, inum) := by
    rw [slotOf, direntInum_dirent, hmod, if_neg hinum]
    exact congrArg some (Prod.ext (strncpy_strncpy name DIRSIZ) rfl)
  have hle := hole_le (f.file dp).slots
  rw [h.done.file_eq]
  rcases Nat.eq_or_lt_of_le hle with heq | hhole
  · rw [put_eq_append heq, heq, File.length_slots,
      File.slots_write_end _ (length_dirent name inum) hdir.size_mod, hslot]
  · rw [put_eq_set hhole, File.slots_write_of_lt _ (length_dirent name inum) hdir.size_mod
      (by rwa [File.length_slots] at hhole), hslot]

theorem Wrote.entries_eq {k : ℕ} {de : List UInt8} (h : Wrote sb dp k de f g) (hdir : f.Directory dp)
    (hde : de.length = DIRENT) (hk : k < (f.file dp).entries) : (g.inode dp).size = (f.inode dp).size := by
  have hsize : (f.file dp).size = DIRENT * (f.file dp).entries := hdir.size_eq
  rw [← UInt32.toNat_inj]
  show (g.file dp).size = (f.file dp).size
  rw [h.size_eq hde, max_eq_left]
  rw [hsize]
  exact Nat.mul_le_mul_left DIRENT hk

/-- What a changed entry leaves of a directory: it is one, with the inode references as they were. -/
structure Kept (dp : ℕ) (f g : Fs) : Prop where
  directory : g.Directory dp
  ref_eq : ∀ i, (g.inode i).ref = (f.inode i).ref

/-- A name has been put into the first free entry. -/
structure Linked (dp : ℕ) (name : List UInt8) (inum : ℕ) (f g : Fs) : Prop extends Kept dp f g where
  entries_eq : (g.file dp).entries = max (f.file dp).entries (hole (f.file dp).slots + 1)
  new : g.entry? dp name = some (hole (f.file dp).slots, inum)
  others : ∀ name', namecmp name' name ≠ 0 → g.entry? dp name' = f.entry? dp name'

/-- The entry of a name, entry `k`, has been cleared. -/
structure Cleared (dp : ℕ) (name : List UInt8) (k : ℕ) (f g : Fs) : Prop extends Kept dp f g where
  entries_eq : (g.file dp).entries = (f.file dp).entries
  gone : g.entry? dp name = none
  others : ∀ name', namecmp name' name ≠ 0 → g.entry? dp name' = f.entry? dp name'
  reused : hole (g.file dp).slots ≤ k

theorem Wrote.linked {i : Fs}
    (h : Wrote sb dp (hole (f.file dp).slots) (dirent name inum) i g) (hsame : Same f i)
    (hdir : f.Directory dp) (hentry : f.entry? dp name = none) (hinum : inum ≠ 0) (hlt : inum < 2 ^ 16) :
    Linked dp name inum f g := by
  have hfile := hsame.file_eq dp
  have hdir' := hdir.same hsame
  have hhole := hole_le (f.file dp).slots
  have hslots : (g.file dp).slots = put (key name, inum) (f.file dp).slots := by
    rw [← hfile] at h ⊢
    exact h.slots_put hdir' hinum hlt
  refine ⟨⟨h.directory hdir' (length_dirent name inum) ?_ ?_, fun i => ?_⟩, ?_, ?_, fun name' hne => ?_⟩
  · rw [hfile, ← File.length_slots]
    exact hhole
  · rw [hslots]
    exact nodup_put inum hentry hdir.unique
  · rw [h.ref_eq, hsame.inode]
  · rw [← File.length_slots, hslots, length_put, File.length_slots]
  · unfold entry?
    rw [hslots, find_put_self inum hentry, Nat.zero_add]
  · unfold entry?
    rw [hslots, find_put_of_ne fun heq => hne ((namecmp_eq_zero_iff _ _).mpr heq)]

theorem Wrote.cleared {k v : ℕ} (h : Wrote sb dp k (replicate DIRENT 0) f g)
    (hdir : f.Directory dp) (hentry : f.entry? dp name = some (k, v)) : Cleared dp name k f g := by
  obtain ⟨hk, -, -⟩ := entry?_eq_some hentry
  have hslots : (g.file dp).slots = (f.file dp).slots.set k none := by
    rw [h.done.file_eq, File.slots_write_of_lt _ (length_replicate ..) hdir.size_mod hk, slotOf_zero]
  have hfind : find (key name) 0 (f.file dp).slots = some (0 + k, v) :=
    hentry.trans (by rw [Nat.zero_add])
  obtain ⟨d, hd, hslot, -⟩ := getElem?_of_find hfind
  obtain rfl : k = d := by omega
  refine ⟨⟨h.directory hdir (length_replicate ..) hk.le ?_, h.ref_eq⟩, ?_, ?_, fun name' hne => ?_, ?_⟩
  · rw [hslots]
    exact nodup_free hdir.unique k
  · rw [← File.length_slots, hslots, length_set, File.length_slots]
  · unfold entry?
    rw [hslots]
    exact find_free_self hdir.unique hfind
  · unfold entry?
    rw [hslots]
    exact find_free_of_ne (fun heq => hne ((namecmp_eq_zero_iff _ _).mpr heq)) 0 hslot
  · refine hole_le_of_free ?_
    rw [hslots, getElem?_set_self (by rw [File.length_slots]; exact hk)]

variable (hsb : sb.Layout) (hown : f.Owned sb) (hrefs : ∀ i, 0 ≤ (f.inode i).ref)
  (hfree : ∀ b, ¬ f.Locked b) (hdir : f.Directory dp)
include hsb hown hrefs hfree hdir

omit hrefs hfree in
/-- What the entry-clearing step does, if it returns. -/
theorem clearDirent_wrote {k : ℕ} (hk : k < (f.file dp).entries)
    (hclear : clearDirent sb devsw f dp (DIRENT * k) = .ok g) :
    Wrote sb dp k (replicate DIRENT 0) f g := by
  have hpost : Post (clearDirent sb devsw f dp (DIRENT * k))
      (Wrote sb dp k (replicate DIRENT 0) f) (fun _ => True) := by
    refine (writei_dirent devsw hsb hown hdir (length_replicate ..) hk.le).bindAny ?_
    rintro ⟨n, g⟩ ⟨hn, hwrote⟩
    simp only [show n = DIRENT from hn, ne_eq, not_true_eq_false, if_false]
    exact hwrote
  exact hpost.of_ok hclear

theorem clearCond_of_clearLaw (hlaw : ClearLaw sb devsw f dp name) : ClearCond f dp name := by
  intro k v hentry htr
  obtain ⟨hk, -, -⟩ := entry?_eq_some hentry
  obtain ⟨g, hclear, hanswer, -⟩ := hlaw k v hentry
  have hwrote := clearDirent_wrote hsb hown hdir hk hclear
  have hcleared := hwrote.cleared hdir hentry
  obtain ⟨h, hlookup⟩ := dirlookup_of_answer hanswer
  obtain ⟨-, _, -, -, -, hfar⟩ := (dirlookup_post devsw hsb hwrote.done.own hcleared.directory
    (fun i => by rw [hcleared.ref_eq]; exact hrefs i)
    (hwrote.done.heldOk (heldOk_of_free hfree))).of_ok hlookup
  rw [hcleared.entries_eq] at hfar
  -- the lookup of the name that is gone goes through all entries
  have hlast : FAR < (f.file dp).entries → ¬ g.Stuck dp ∧ (f.file dp).entries = FAR + 1 := by
    intro hlt
    obtain ⟨hopen, -, hor⟩ := hfar (hwrote.tracks.mpr htr) hlt
      fun j hj => entry?_eq_none hcleared.gone (by rw [hcleared.entries_eq]; omega)
    refine ⟨hopen, hor.resolve_right fun hnamed => ?_⟩
    rw [entry?_eq_none hcleared.gone (by rw [hcleared.entries_eq]; exact hlt)] at hnamed
    exact absurd hnamed (by decide)
  refine ⟨not_le.mp fun hge => ?_, not_lt.mp fun hgt => ?_⟩
  · obtain ⟨hopen, hn⟩ := hlast (hge.trans_lt hk)
    obtain rfl : k = FAR := by omega
    exact hopen (hwrote.far htr)
  · have := (hlast (by omega)).2
    omega

theorem clearLaw_of_clearCond (hcond : ClearCond f dp name) : ClearLaw sb devsw f dp name := by
  intro k v hentry
  obtain ⟨hk, -, -⟩ := entry?_eq_some hentry
  have hcond := hcond k v hentry
  have hzero : (replicate DIRENT (0 : UInt8)).length = DIRENT := length_replicate ..
  obtain ⟨g, hwrite, hwrote⟩ := writei_dirent_ok devsw hsb hown hdir hzero hk.le hfree
    (fun heq => absurd heq hk.ne)
  have hcleared := hwrote.cleared hdir hentry
  have hanswer : ∀ name', answer sb devsw g dp name' = expected sb g dp name' := fun name' =>
    answer_eq devsw hsb hwrote.done.own hcleared.directory
      (fun i => by rw [hcleared.ref_eq]; exact hrefs i)
      (hwrote.free hfree fun htr => (hcond htr).1)
      (fun htr => by rw [hcleared.entries_eq]; exact (hcond (hwrote.tracks.mp htr)).2)
  refine ⟨g, ?_, ?_, fun name' hne => ?_, hwrote.entries_eq hdir hzero hk, hcleared.reused⟩
  · unfold clearDirent
    rw [hwrite]
    rfl
  · rw [hanswer, expected, hcleared.gone]
  · rw [hanswer, answer_eq devsw hsb hown hdir hrefs hfree (fun htr => (hcond htr).2)]
    exact expected_congr (hcleared.others name' hne) hcleared.ref_eq

/-- A name that is found. -/
theorem linkLaw_some_iff {k v : ℕ} (hentry : f.entry? dp name = some (k, v)) :
    LinkLaw sb devsw f dp name inum ↔ LinkCond sb f dp name inum := by
  obtain ⟨hk, hslot, hbefore⟩ := entry?_eq_some hentry
  unfold LinkLaw LinkCond
  simp only [hentry]
  constructor
  · rintro ⟨hanswer, g', hlink, hsame⟩
    obtain ⟨h, hlookup⟩ := dirlookup_of_answer hanswer
    obtain ⟨hexp, g, hon, -, htook, hfar⟩ :=
      (dirlookup_post devsw hsb hown hdir hrefs (heldOk_of_free hfree)).of_ok hlookup
    have htook := htook v _ rfl
    obtain ⟨g'', hput, hback⟩ := htook.iput sb
    unfold dirlink at hlink
    rw [hlookup] at hlink
    have hlink : (iputHolding sb h dp v >>= fun f => .ok (-1, f)) = Except.ok (-1, g') := hlink
    unfold iputHolding at hlink
    have hdp : v ≠ dp := fun heq => by
      rw [if_pos heq] at hlink
      cases hlink
    rw [if_neg hdp, hput] at hlink
    obtain rfl : g'' = g' := congrArg Prod.snd (Except.ok.inj hlink)
    refine ⟨hdp, ?_, fun htr => not_le.mp fun hge => ?_⟩
    · simp only [expected, hentry] at hexp
      by_contra hroom
      rw [if_neg hroom] at hexp
      cases hexp
    · -- the buffer left locked is one that was not
      obtain ⟨-, hstuck, -⟩ := hfar htr (hge.trans_lt hk) fun j hj => hbefore j (hj.trans_le hge)
      obtain ⟨b, hb, hmem⟩ := hstuck.2
      rw [← hback.held, hsame.held] at hb
      exact hfree _ ⟨b, hb, hmem⟩
  · rintro ⟨hdp, hroom, hfar⟩
    obtain ⟨g, -, hgf, hlookup⟩ := dirlookup_some devsw hsb hown hdir hfree hentry
      (fun htr => (hfar htr).le)
    obtain rfl : g = f := hgf hfar
    cases hget : iget sb g v with
    | error e => exact absurd hroom ((iget_post sb hrefs v).of_error hget).2
    | ok h =>
      obtain ⟨-, htook⟩ := (iget_post sb hrefs v).of_ok hget
      obtain ⟨g', hput, hback⟩ := htook.iput sb
      rw [hget] at hlookup
      refine ⟨by rw [answer, hlookup]; rfl, g', ?_, hback⟩
      unfold dirlink
      rw [hlookup]
      show (iputHolding sb h dp v >>= fun f => .ok (-1, f)) = Except.ok (-1, g')
      rw [iputHolding, if_neg hdp, hput]
      rfl

/-- What `dirlink` does with a new name, if it returns. -/
theorem dirlink_post (hentry : f.entry? dp name = none) :
    Post (dirlink sb devsw f dp name inum)
      (fun r => ∃ g, Onward sb f g ∧ Wrote sb dp (hole (f.file dp).slots) (dirent name inum) g r.2 ∧
        (f.Tracks → FAR < (f.file dp).entries → g.Stuck dp ∧ (f.file dp).entries = FAR + 1))
      (fun _ => True) := by
  unfold dirlink
  refine (dirlookup_post devsw hsb hown hdir hrefs (heldOk_of_free hfree)).seq ?_
  rintro ⟨found, h⟩ ⟨hexp, g, hon, hnone, -, hfar⟩
  simp only [expected, hentry] at hexp
  obtain rfl : found = none := (Except.ok.inj hexp).symm
  obtain rfl : h = g := hnone rfl
  have hlast : f.Tracks → FAR < (f.file dp).entries → h.Stuck dp ∧ (f.file dp).entries = FAR + 1 := by
    intro htr hlt
    obtain ⟨-, hstuck, hor⟩ := hfar htr hlt fun j hj => entry?_eq_none hentry (hj.trans hlt)
    refine ⟨hstuck, hor.resolve_right fun hnamed => ?_⟩
    rw [entry?_eq_none hentry hlt] at hnamed
    exact absurd hnamed (by decide)
  have hown' := hown.same hon.same
  have hdir' := hdir.same hon.same
  have hfile := hon.same.file_eq dp
  refine (scan_post hsb _ h 0 hown' hdir' hon.heldOk ?_).bindAny ?_
  · rw [rounds, hdir'.size_eq]
    unfold DIRENT
    omega
  rintro ⟨⟨off, de⟩, i⟩ hscan
  obtain ⟨k, -, hkn, hbefore, hstop, heq⟩ := hscan.found
  rw [max_eq_right (Nat.zero_le _)] at hkn
  obtain ⟨rfl, -⟩ := Prod.mk.inj heq
  have hhole : k = hole (h.file dp).slots := hole_eq hkn
    (fun j hj => of_decide_eq_false (hbefore j (Nat.zero_le _) hj))
    (fun hlt => of_decide_eq_true (hstop hlt))
  have hon' : Onward sb h i := hscan.onward
  rw [hfile] at hhole
  refine (writei_dirent devsw hsb (hown'.same hon'.same) (hdir'.same hon'.same) (length_dirent name inum)
    (by rw [hon'.same.file_eq]; exact hkn)).bindAny ?_
  rintro ⟨n, g⟩ ⟨hn, hwrote⟩
  simp only [show n = DIRENT from hn, ne_eq, not_true_eq_false, if_false]
  refine ⟨i, hon.trans hon', hhole ▸ hwrote, fun htr hlt => ?_⟩
  exact ⟨hon'.stuck (hlast htr hlt).1, (hlast htr hlt).2⟩

omit hsb hown hrefs hfree hdir in
/-- There are more names of two characters than a directory up to entry `FAR` has entries. -/
theorem exists_other_name (name : List UInt8) (hn : (f.file dp).entries ≤ FAR + 1) :
    ∃ name', namecmp name' name ≠ 0 ∧ f.entry? dp name' = none := by
  have hchar : ∀ x : Fin 255, UInt8.ofNat (x + 1) ≠ 0 := by
    intro x hx
    have := congrArg UInt8.toNat hx
    rw [UInt8.toNat_ofNat', Nat.mod_eq_of_lt (by omega)] at this
    exact absurd this (Nat.succ_ne_zero _)
  have hkey : ∀ a b : UInt8, a ≠ 0 → b ≠ 0 → key [a, b] = a :: b :: replicate 12 0 := by
    intro a b ha hb
    simp [key, strncpy, ha, hb]
  have hinj : Function.Injective fun p : Fin 255 × Fin 255 =>
      key [UInt8.ofNat (p.1 + 1), UInt8.ofNat (p.2 + 1)] := by
    intro p q heq
    simp only [hkey _ _ (hchar _) (hchar _), cons.injEq, ← UInt8.toNat_inj,
      UInt8.toNat_ofNat'] at heq
    ext
    · omega
    · omega
  have hlen : (key name :: keys (f.file dp).slots).length < Fintype.card (Fin 255 × Fin 255) := by
    have hkeys := length_keys_le (f.file dp).slots
    rw [File.length_slots] at hkeys
    rw [Fintype.card_prod, Fintype.card_fin, length_cons]
    unfold FAR NEAR NDIRECT NINDIRECT DIRENT BSIZE at hn
    omega
  obtain ⟨p, hp⟩ := exists_notMem hinj hlen
  rw [mem_cons, not_or] at hp
  refine ⟨_, fun heq => hp.1 ((namecmp_eq_zero_iff _ _).mp heq), ?_⟩
  exact find_eq_none_iff.mpr hp.2

omit hsb hown hrefs hfree hdir in
theorem dirlookup_inum_lt {v off : ℕ} (h : dirlookup sb devsw f dp name = .ok (some (v, off), g)) :
    v < 2 ^ 16 := by
  unfold dirlookup at h
  split at h
  · exact absurd h nofun
  obtain ⟨⟨⟨off', de⟩, f'⟩, -, h⟩ := bind_eq_ok.mp h
  cases de with
  | none => cases h
  | some de =>
    obtain ⟨f'', -, h⟩ := bind_eq_ok.mp h
    cases h
    exact direntInum_lt de

/-- A new name is linked by the law only under the condition. -/
theorem linkCond_of_linkLaw (hentry : f.entry? dp name = none) (hinum : inum ≠ 0)
    (hlaw : LinkLaw sb devsw f dp name inum) : LinkCond sb f dp name inum := by
  have hhole := hole_le (f.file dp).slots
  rw [File.length_slots] at hhole
  unfold LinkLaw at hlaw
  unfold LinkCond
  simp only [hentry] at hlaw ⊢
  obtain ⟨-, g, hlink, hanswer, hothers, -⟩ := hlaw
  obtain ⟨i, hon, hwrote, hfar⟩ := (dirlink_post hsb hown hrefs hfree hdir hentry).of_ok hlink
  obtain ⟨h, hlookup⟩ := dirlookup_of_answer hanswer
  have hlt := dirlookup_inum_lt hlookup
  have hlinked := hwrote.linked hon.same hdir hentry hinum hlt
  have hpost : ∀ name', Post (dirlookup sb devsw g dp name') _ _ := fun name' =>
    dirlookup_post devsw hsb hwrote.done.own hlinked.directory
      (fun j => by rw [hlinked.ref_eq]; exact hrefs j) (hwrote.done.heldOk hon.heldOk)
  obtain ⟨hexp, _, -, -, -, hfarg⟩ := (hpost name).of_ok hlookup
  have hentries := hlinked.entries_eq
  refine ⟨hlt, ?_, fun htr => ?_, fun heq => ⟨?_, ?_⟩⟩
  · simp only [expected, hlinked.new] at hexp
    by_contra hroom
    rw [if_neg (mt (room_congr hlinked.ref_eq inum).mp hroom)] at hexp
    cases hexp
  · have htrg : g.Tracks := hwrote.tracks.mpr (hon.same.tracks.mpr htr)
    rcases Nat.lt_or_ge FAR (f.file dp).entries with hgt | hle
    · -- the loops left a buffer locked, and another name that is not there is not looked up again
      obtain ⟨hstuck, hlast⟩ := hfar htr hgt
      obtain ⟨name', hne, habsent⟩ := exists_other_name name hlast.le
      have hother := hothers name' hne
      rw [answer_eq devsw hsb hown hdir hrefs hfree (fun _ => hlast.le), expected, habsent] at hother
      obtain ⟨h', hlookup'⟩ := dirlookup_of_answer hother
      obtain ⟨-, _, -, -, -, hfarg'⟩ := (hpost name').of_ok hlookup'
      have hopen := hfarg' htrg (by rw [hentries]; omega) fun j hj =>
        entry?_eq_none ((hlinked.others name' hne).trans habsent) (by rw [hentries]; omega)
      exact absurd (hwrote.stuck hon.heldOk hstuck) hopen.1
    · refine ⟨hle, not_le.mp fun hge => ?_⟩
      -- the new entry is the first behind the blocks of the indirect block
      have hat : hole (f.file dp).slots = FAR := by omega
      have hbefore := (entry?_eq_some hlinked.new).2.2
      rw [hat] at hwrote hbefore hentries
      have hopen := hfarg htrg (by rw [hentries]; omega) hbefore
      exact hopen.1 (hwrote.far (hon.same.tracks.mpr htr))
  · have hfits := hwrote.fits (by decide)
    rw [hdir.size_eq, ← heq]
    exact hfits
  · have hfreeBlocks := hwrote.done.free_eq
    have hneed : i.need dp (slotsOf (blocksOf (DIRENT * hole (f.file dp).slots) DIRENT)) =
        f.need dp (slotsOf (blocksOf (f.inode dp).size.toNat DIRENT)) := by
      rw [hdir.size_eq, ← heq]
      unfold need
      simp only [hon.same.ptr_eq]
    rw [hneed, hon.same.disk] at hfreeBlocks
    omega

omit hrefs in
/-- `dirlink` puts a new name into the first free entry. -/
theorem dirlink_new (hentry : f.entry? dp name = none)
    (hfar : f.Tracks → (f.file dp).entries ≤ FAR)
    (hgrow : hole (f.file dp).slots = (f.file dp).entries →
      (f.inode dp).size.toNat + DIRENT ≤ MAXMAP * BSIZE ∧
      f.need dp (slotsOf (blocksOf (f.inode dp).size.toNat DIRENT)) ≤ freeBlocks sb f.disk) :
    ∃ g, dirlink sb devsw f dp name inum = .ok (0, g) ∧
      Wrote sb dp (hole (f.file dp).slots) (dirent name inum) f g := by
  have hhole := hole_le (f.file dp).slots
  rw [File.length_slots] at hhole
  obtain ⟨i, -, hif, hlookup⟩ := dirlookup_none devsw hsb hown hdir hfree hentry
    fun htr => (hfar htr).trans (Nat.le_succ _)
  obtain rfl : i = f := hif hfar
  have hbefore : ∀ j < hole (i.file dp).slots, unused ((i.file dp).dirent j) = false :=
    fun j hj => decide_eq_false (direntInum_before_hole hj)
  have hstop : hole (i.file dp).slots < (i.file dp).entries →
      unused ((i.file dp).dirent (hole (i.file dp).slots)) = true :=
    fun h => decide_eq_true (direntInum_hole h)
  obtain ⟨j, hscan, -, hji⟩ := scan_ok devsw "dirlink read" hsb hown hdir hfree hhole hbefore hstop
    (fun htr => by have := hfar htr; omega)
    (i.rounds dp) 0 (Nat.zero_le _) (by rw [rounds, hdir.size_eq]; unfold DIRENT; omega)
  obtain rfl : j = i := hji fun htr => by have := hfar htr; omega
  obtain ⟨g, hwrite, hwrote⟩ := writei_dirent_ok devsw hsb hown hdir (length_dirent name inum) hhole hfree
    (fun heq => by
      have := hgrow heq
      rw [hdir.size_eq, ← heq] at this
      exact this)
  refine ⟨g, ?_, hwrote⟩
  unfold dirlink
  rw [hlookup]
  show (scan sb devsw "dirlink read" unused dp (j.rounds dp) j (DIRENT * 0) >>= _) = _
  rw [hscan]
  show (writei sb devsw j dp (dirent name inum) (DIRENT * hole (j.file dp).slots) >>= _) = _
  rw [hwrite]
  rfl

/-- A new name is linked by the law under the condition. -/
theorem linkLaw_of_linkCond (hentry : f.entry? dp name = none) (hinum : inum ≠ 0)
    (hcond : LinkCond sb f dp name inum) : LinkLaw sb devsw f dp name inum := by
  unfold LinkCond at hcond
  unfold LinkLaw
  simp only [hentry] at hcond ⊢
  obtain ⟨hlt, hroom, hfar, hgrow⟩ := hcond
  have hle : f.Tracks → (f.file dp).entries ≤ FAR + 1 := fun htr => (hfar htr).1.trans (Nat.le_succ _)
  obtain ⟨g, hlink, hwrote⟩ := dirlink_new hsb hown hfree hdir hentry (fun htr => (hfar htr).1) hgrow
  have hlinked := hwrote.linked (Same.refl f) hdir hentry hinum hlt
  have hanswer : ∀ name', answer sb devsw g dp name' = expected sb g dp name' := fun name' =>
    answer_eq devsw hsb hwrote.done.own hlinked.directory
      (fun i => by rw [hlinked.ref_eq]; exact hrefs i)
      (hwrote.free hfree fun htr => (hfar htr).2)
      (fun htr => by have := hfar (hwrote.tracks.mp htr); rw [hlinked.entries_eq]; omega)
  refine ⟨?_, g, hlink, ?_, fun name' hne => ?_, fun h => hwrote.entries_eq hdir (length_dirent name inum) h⟩
  · rw [answer_eq devsw hsb hown hdir hrefs hfree hle, expected, hentry]
  · rw [hanswer]
    simp only [expected, hlinked.new]
    rw [if_pos ((room_congr hlinked.ref_eq inum).mpr hroom)]
  · rw [hanswer, answer_eq devsw hsb hown hdir hrefs hfree hle]
    exact expected_congr (hlinked.others name' hne) hlinked.ref_eq

end Prove

/-- **A directory is a finite map** for `dirlink`, `dirlookup` and the entry-clearing step of
`sys_unlink` just under the conditions: for every directory, free entries anywhere, and every name. -/
theorem directory_map_iff {sb : Superblock} (hsb : sb.Layout) (devsw : Devsw) {f : Fs} {dp : ℕ}
    (hown : f.Owned sb) (hrefs : ∀ i, 0 ≤ (f.inode i).ref) (hfree : ∀ b, ¬ f.Locked b)
    (hdir : f.Directory dp) (name : List UInt8) {inum : ℕ} (hinum : inum ≠ 0) :
    LinkLaw sb devsw f dp name inum ∧ ClearLaw sb devsw f dp name ↔
      LinkCond sb f dp name inum ∧ ClearCond f dp name := by
  refine and_congr ?_ ⟨clearCond_of_clearLaw hsb hown hrefs hfree hdir,
    clearLaw_of_clearCond hsb hown hrefs hfree hdir⟩
  cases hentry : f.entry? dp name with
  | none =>
    exact ⟨linkCond_of_linkLaw hsb hown hrefs hfree hdir hentry hinum,
      linkLaw_of_linkCond hsb hown hrefs hfree hdir hentry hinum⟩
  | some kv => exact linkLaw_some_iff hsb hown hrefs hfree hdir hentry

/-! ## An empty directory -/

/-- An empty directory, inode `1`, on a disk with one data block; no buffer is locked. -/
def smallDir : Fs := (smallFs (some ∅)).setInode 1 { (smallFs (some ∅)).inode 1 with type := T_DIR }

theorem smallDir_ptr (i : ℕ) (t : Slot) : smallDir.ptr i t = 0 := by
  have haddrs : ∀ k, (smallDir.inode i).addrs k = 0 := by
    intro k
    by_cases hi : i = 1
    · rw [hi]
      rfl
    · unfold smallDir
      rw [setInode_inode_of_ne _ _ hi]
      rfl
  cases t <;> simp [ptr, haddrs, childOf]

theorem smallDir_owned : smallDir.Owned smallSb where
  inum_lt i hi := by
    by_cases h : i = 1
    · rw [h]
      decide
    · unfold Live smallDir at hi
      rw [setInode_inode_of_ne _ _ h] at hi
      exact absurd (if_neg h) hi.1
  meta_marked := (smallFs_owned none).meta_marked
  unshared i j s t _ _ hne := absurd (smallDir_ptr i s) hne
  in_data i s _ hne := absurd (smallDir_ptr i s) hne
  ptr_marked i s _ hne := absurd (smallDir_ptr i s) hne

theorem smallDir_directory : smallDir.Directory 1 where
  type_eq := rfl
  size_mod := rfl
  mapped _ hbn := absurd hbn (Nat.not_lt_zero _)
  unique := nodup_nil

/-- The name `a` is linked to inode `2` by the laws. -/
theorem directory_map_small : LinkLaw smallSb noDevices smallDir 1 [97] 2 ∧
    ClearLaw smallSb noDevices smallDir 1 [97] := by
  have hfree : ∀ b, ¬ smallDir.Locked b := by
    rintro b ⟨h, hh, hb⟩
    obtain rfl : ∅ = h := Option.some.inj hh
    exact absurd hb (Finset.notMem_empty b)
  have hrefs : ∀ i, 0 ≤ (smallDir.inode i).ref := by
    intro i
    by_cases hi : i = 1
    · rw [hi]
      decide
    · unfold smallDir
      rw [setInode_inode_of_ne _ _ hi]
      show (0 : ℤ) ≤ 1
      decide
  refine (directory_map_iff smallSb_layout noDevices smallDir_owned hrefs hfree smallDir_directory [97]
    (by decide)).mpr ⟨⟨by decide, by decide, fun _ => by decide, fun _ => by decide⟩, ?_⟩
  intro k v hentry
  exact absurd hentry nofun

/-- Inode number `65536` is stored as `0`: the name is linked and not found.  And where `.` names the
directory itself, linking it again waits for the lock of the directory, which the caller holds. -/
theorem not_directory_map_small :
    (∃ g, dirlink smallSb noDevices smallDir 1 [97] 65536 = .ok (0, g) ∧
      answer smallSb noDevices g 1 [97] = .ok none) ∧
    ∃ g, dirlink smallSb noDevices smallDir 1 [46] 1 = .ok (0, g) ∧
      answer smallSb noDevices g 1 [46] = .ok (some (1, 0)) ∧
      dirlink smallSb noDevices g 1 [46] 2 = .error .blocked :=
  ⟨⟨_, rfl, rfl⟩, _, rfl, rfl, rfl⟩

end Fs
