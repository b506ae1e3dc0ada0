/-
# Following paths on the disk

A call that is alone in the file system follows a path as far as the directories on disk lead.

* `Image.walk` follows a path through the directories on disk as `namex` does, without references and
  locks.  `Image.resolve` does so with a cache: `State.cached` are the inodes that have an entry of it, and
  a path is not followed when there is no entry left.
* `Trail b t h` relates the state `t` in which a path is being followed to the state `b` before: nothing
  has changed but the cache, and the call holds the references `h`.  The blocks of inodes are the same too
  if no directory lacks one (`Mapped`): looking at a directory allocates the blocks that are missing.
-/
import Xv6.Locks
import Xv6.References
import Xv6.Volume

namespace Sysfile

open Prog Outcome Image List Option

/-! ## Following a path -/

namespace Image

/-- The number of the entry that has a name in directory `d`. -/
def find (D : Image) (d : ℕ) (name : Name) : Option ℕ :=
  (range ((D.dinode d).size / DIRENT)).find? fun k => (D.entry d k).inum ≠ 0 ∧ (D.entry d k).name = name

/-- The inode that a name stands for in directory `d`. -/
def lookup (D : Image) (d : ℕ) (name : Name) : Option ℕ :=
  (D.find d name).map fun k => (D.entry d k).inum

/-- The inode that the names lead to from inode `i`; with `nameiparent` the one above it, and the last
name. -/
def walk (D : Image) (nameiparent : Bool) : ℕ → List Name → Option (ℕ × Name)
  | i, [] => if nameiparent then none else some (i, [])
  | i, name :: rest =>
    if (D.dinode i).type ≠ T_DIR then none
    else if nameiparent ∧ rest = [] then some (i, name)
    else (D.lookup i name).bind fun next => walk D nameiparent next rest

/-- A path starts at the root or in the current directory. -/
def origin (cwd : Option ℕ) (path : Path) : Option ℕ :=
  if path.head? = some slash then some ROOTINO else cwd

/-- The inode that a path leads to; with `nameiparent` the one above it, and the last name. -/
def walkPath (D : Image) (cwd : Option ℕ) (nameiparent : Bool) (path : Path) : Option (ℕ × Name) :=
  (origin cwd path).bind fun i => D.walk nameiparent i (elems path.length path)

/-- A cache that holds the inodes `C` has an entry for inode `i`. -/
def Fits (C : Finset ℕ) (i : ℕ) : Prop := i ∈ C ∨ C.card < NINODE

instance (C : Finset ℕ) (i : ℕ) : Decidable (Fits C i) := inferInstanceAs (Decidable (_ ∨ _))

/-- What `walk` finds, if there is an entry of the cache for every inode on the way. -/
def resolve (D : Image) (C : Finset ℕ) (nameiparent : Bool) : ℕ → List Name → Option (ℕ × Name)
  | i, [] => if nameiparent then none else some (i, [])
  | i, name :: rest =>
    if (D.dinode i).type ≠ T_DIR then none
    else if nameiparent ∧ rest = [] then some (i, name)
    else (D.lookup i name).bind fun next =>
      if Fits (insert i C) next then resolve D C nameiparent next rest else none

/-- Where a path starts, if there is an entry of the cache for it. -/
def start (C : Finset ℕ) (cwd : Option ℕ) (path : Path) : Option ℕ :=
  if path.head? = some slash then if Fits C ROOTINO then some ROOTINO else none else cwd

/-- What `walkPath` finds, if there is an entry of the cache for every inode on the way. -/
def resolvePath (D : Image) (C : Finset ℕ) (cwd : Option ℕ) (nameiparent : Bool) (path : Path) :
    Option (ℕ × Name) :=
  (start C cwd path).bind fun i => D.resolve C nameiparent i (elems path.length path)

variable {D D' : Image} {C : Finset ℕ}

theorem SameShape.lookup (h : SameShape D D') : D'.lookup = D.lookup := by
  funext d name
  unfold Image.lookup find
  rw [h.size, h.entry]

theorem SameShape.resolve (h : SameShape D D') (nameiparent : Bool) (names : List Name) :
    ∀ i, D'.resolve C nameiparent i names = D.resolve C nameiparent i names := by
  induction names with
  | nil => exact fun _ => rfl
  | cons name rest ih =>
    intro i
    unfold Image.resolve
    simp only [h.type, h.lookup, ih]

theorem SameShape.resolvePath (h : SameShape D D') (cwd : Option ℕ) (nameiparent : Bool) (path : Path) :
    D'.resolvePath C cwd nameiparent path = D.resolvePath C cwd nameiparent path := by
  unfold Image.resolvePath
  simp only [h.resolve]

variable {nameiparent : Bool} {names : List Name}

/-- A path is followed with the cache where it leads. -/
theorem walk_of_resolve {r : ℕ × Name} {i : ℕ} (h : D.resolve C nameiparent i names = some r) :
    D.walk nameiparent i names = some r := by
  fun_induction Image.resolve D C nameiparent i names with
  | case1 | case2 | case3 => simp_all [Image.walk]
  | case4 i name rest hdir hlast => rwa [Image.walk, if_neg hdir, if_pos hlast]
  | case5 i name rest hdir hlast ih =>
    rw [Image.walk, if_neg hdir, if_neg hlast]
    obtain ⟨next, hnext, h⟩ := bind_eq_some_iff.mp h
    refine bind_eq_some_iff.mpr ⟨next, hnext, ?_⟩
    split at h
    · exact ih next h
    · cases h

theorem resolve_eq_none {i : ℕ} (h : D.walk nameiparent i names = none) :
    D.resolve C nameiparent i names = none := by
  rw [eq_none_iff_forall_ne_some] at h ⊢
  exact fun r hr => h r (walk_of_resolve hr)

variable {cwd : Option ℕ} {path : Path}

theorem origin_of_start {i : ℕ} (h : start C cwd path = some i) :
    origin cwd path = some i := by
  unfold start at h
  unfold origin
  split at h
  next hroot =>
    rw [if_pos hroot]
    split at h
    · exact h
    · cases h
  next hrel => rwa [if_neg hrel]

theorem walkPath_of_resolvePath {r : ℕ × Name} (h : D.resolvePath C cwd nameiparent path = some r) :
    D.walkPath cwd nameiparent path = some r := by
  obtain ⟨i, hstart, h⟩ := bind_eq_some_iff.mp h
  exact bind_eq_some_iff.mpr ⟨i, origin_of_start hstart, walk_of_resolve h⟩

theorem resolvePath_eq_none (h : D.walkPath cwd nameiparent path = none) :
    D.resolvePath C cwd nameiparent path = none := by
  rw [eq_none_iff_forall_ne_some] at h ⊢
  exact fun r hr => h r (walkPath_of_resolvePath hr)

variable {name : Name}

/-- What has a name in it is not empty. -/
theorem size_ne_zero_of_lookup {d j : ℕ} (h : D.lookup d name = some j) :
    (D.dinode d).size ≠ 0 := by
  intro hzero
  simp [Image.lookup, find, hzero] at h

/-- The last name is looked for in a directory. -/
theorem isDir_of_resolve {d i : ℕ} (h : D.resolve C true i names = some (d, name)) : D.IsDir d := by
  fun_induction Image.resolve D C true i names with
  | case1 | case2 | case3 => simp_all
  | case4 _ _ _ hdir =>
    cases h
    exact not_not.mp hdir
  | case5 _ _ _ _ _ ih =>
    obtain ⟨next, -, h⟩ := bind_eq_some_iff.mp h
    split at h
    · exact ih next h
    · cases h

theorem isDir_of_resolvePath {d : ℕ} (h : D.resolvePath C cwd true path = some (d, name)) : D.IsDir d := by
  obtain ⟨i, -, h⟩ := bind_eq_some_iff.mp h
  exact isDir_of_resolve h

end Image

/-! ## What a state shows -/

namespace State

variable (s : State)

/-- **`dirlookup`** finds the entry with the name, and takes a reference to its inode. -/
theorem dirlookup_eq {dp : InodePtr} {name : Name} (hdir : (s.icache dp).type = T_DIR)
    (hsize : (s.dinode (s.icache dp).inum).size = (s.icache dp).size) :
    s.dirlookup dp name = match s.image.find (s.icache dp).inum name with
      | none => if (s.icache dp).size % DIRENT = 0 then .ok (none, s.scanned dp 0 none)
          else .error (.panic "dirlookup read")
      | some k => ((s.scanned dp 0 (some k)).igetOrPanic (s.icache dp).dev
          (s.entry (s.icache dp).inum k).inum).map fun r => (some (r.1, k * DIRENT), r.2) := by
  have hfind : (range ((s.icache dp).size / DIRENT)).find? (fun k => decide
      ((s.entry (s.icache dp).inum k).inum ≠ 0 ∧ (s.entry (s.icache dp).inum k).name = name)) =
      s.image.find (s.icache dp).inum name := by
    rw [Image.find, image_dinode, hsize]
    rfl
  simp only [State.dirlookup, findDirent, hfind, if_neg (not_not.mpr hdir)]
  cases s.image.find (s.icache dp).inum name with
  | none =>
    dsimp only
    split <;> rfl
  | some k => rfl

/-- The inodes that have an entry of the cache. -/
def cached : Finset ℕ :=
  (Finset.univ.filter fun e => 0 < (s.icache e).ref).image fun e => (s.icache e).inum

/-- The current directory of a process. -/
def cwdInum (p : ℕ) : Option ℕ := (s.proc p).cwd.map fun ip => (s.icache ip).inum

/-- **The calls that wait for a lock that they hold**: a `link` to a name that stands for the directory it
would be written to, and an `unlink` of such a name other than "." and "..". -/
def WaitsForItself (p : ℕ) : Call → Prop
  | .sysLink (some old) (some new) =>
    ∃ i n, s.image.resolvePath s.cached (s.cwdInum p) false old = some (i, n) ∧
      s.image.Used i ∧ ¬ s.image.IsDir i ∧
      ∃ d name, s.image.resolvePath (insert i s.cached) (s.cwdInum p) true new = some (d, name) ∧
        s.image.lookup d name = some d
  | .sysUnlink (some path) =>
    ∃ d name, s.image.resolvePath s.cached (s.cwdInum p) true path = some (d, name) ∧
      name ≠ dot ∧ name ≠ dotdot ∧ s.image.lookup d name = some d
  | _ => False

end State

/-- The entries of the cache in use: an inode has one at most. -/
structure Entries (s : State) : Prop where
  nonneg : ∀ e, 0 ≤ (s.icache e).ref
  dev : ∀ e, 0 < (s.icache e).ref → (s.icache e).dev = ROOTDEV
  unique : ∀ e e', 0 < (s.icache e).ref → 0 < (s.icache e').ref →
    (s.icache e).inum = (s.icache e').inum → e = e'

/-- **The cache agrees with the disk**: a copy that is valid is what is on disk. -/
structure Cache (s : State) : Prop extends Entries s where
  coherent : ∀ e, 0 < (s.icache e).ref → (s.icache e).valid = true →
    s.dinode (s.icache e).inum = (s.icache e).dinode ∧ (s.icache e).type ≠ 0

/-- Nor does it differ in the word behind the record: `iupdate` of a copy leaves the next inode alone. -/
def Words (s : State) : Prop :=
  ∀ e, 0 < (s.icache e).ref → (s.icache e).valid = true → s.WordKept e

variable {p : ℕ} {b s t : State} {h k : InodePtr → ℕ} {ip dp : InodePtr}

variable {i : ℕ}

theorem mem_cached : i ∈ s.cached ↔ ∃ e, 0 < (s.icache e).ref ∧ (s.icache e).inum = i := by
  simp [State.cached]

namespace Entries

/-- When every entry is in use there is no room. -/
theorem not_fits (hs : Entries s) (hfull : ∀ e, (s.icache e).ref ≠ 0) (hi : i ∉ s.cached) :
    ¬ Fits s.cached i := by
  have hpos : ∀ e, 0 < (s.icache e).ref := fun e => lt_of_le_of_ne (hs.nonneg e) (hfull e).symm
  have hcard : s.cached.card = NINODE := by
    unfold State.cached
    rw [Finset.card_image_of_injOn, Finset.filter_true_of_mem fun e _ => hpos e, Finset.card_fin]
    exact fun e _ e' _ heq => hs.unique e e' (hpos e) (hpos e') heq
  rintro (hmem | hlt)
  · exact hi hmem
  · omega

/-- With an entry that is not in use there is room. -/
theorem fits_of_free (hfree : (s.icache ip).ref = 0) (i : ℕ) : Fits s.cached i := by
  refine .inr (Finset.card_image_le.trans_lt ?_)
  have hsub : (Finset.univ.filter fun e => 0 < (s.icache e).ref) ⊂ Finset.univ :=
    Finset.filter_ssubset.mpr ⟨ip, Finset.mem_univ ip, by omega⟩
  have hlt := Finset.card_lt_card hsub
  rwa [Finset.card_fin] at hlt

/-- **`iget`**: one more reference to an entry, or a new entry. -/
theorem igetOrPanic (hs : Entries s) (i : ℕ) : Post (s.igetOrPanic ROOTDEV i)
    (fun r => (0 < (s.icache r.1).ref ∧ (s.icache r.1).inum = i ∧
        r.2 = s.setCached r.1 { s.icache r.1 with ref := (s.icache r.1).ref + 1 }) ∨
      ((s.icache r.1).ref = 0 ∧ i ∉ s.cached ∧
        r.2 = s.setCached r.1 { s.icache r.1 with dev := ROOTDEV, inum := i, ref := 1, valid := false }))
    (fun e => e ≠ .blocked ∧ ¬ Fits s.cached i) := by
  unfold State.igetOrPanic
  have hmissing : (finRange NINODE).find? (fun ip => decide (0 < (s.icache ip).ref ∧
      (s.icache ip).dev = ROOTDEV ∧ (s.icache ip).inum = i)) = none → i ∉ s.cached := by
    intro hnone hmem
    obtain ⟨e, hpos, hinum⟩ := mem_cached.mp hmem
    have he := find?_eq_none.mp hnone e (mem_finRange e)
    rw [decide_eq_true_eq] at he
    exact he ⟨hpos, hs.dev e hpos, hinum⟩
  split
  next r hr =>
    unfold State.iget at hr
    split at hr
    next ip hfind =>
      cases hr
      have hip := find?_some hfind
      rw [decide_eq_true_eq] at hip
      exact .inl ⟨hip.1, hip.2.2, rfl⟩
    next hnone =>
      split at hr
      next ip hfind =>
        cases hr
        have hip := find?_some hfind
        rw [decide_eq_true_eq] at hip
        exact .inr ⟨hip, hmissing hnone, rfl⟩
      next => cases hr
  next hr =>
    unfold State.iget at hr
    split at hr
    next => cases hr
    next hnone =>
      split at hr
      next => cases hr
      next hfull =>
        refine ⟨notBlocked_panic _, hs.not_fits (fun e he => ?_) (hmissing hnone)⟩
        have hfalse := find?_eq_none.mp hfull e (mem_finRange e)
        rw [decide_eq_true_eq] at hfalse
        exact hfalse he

end Entries

/-- One more reference: one more inode in the cache, or the same. -/
theorem cached_eq_insert (hb : Cache b) (href : ∀ e, (t.icache e).ref = (b.icache e).ref + one ip e)
    (hinum : ∀ e, 0 < (b.icache e).ref → (t.icache e).inum = (b.icache e).inum) :
    t.cached = insert (t.icache ip).inum b.cached := by
  ext i
  rw [Finset.mem_insert, mem_cached, mem_cached]
  constructor
  · rintro ⟨e, hpos, rfl⟩
    by_cases he : e = ip
    · exact .inl (by rw [he])
    · rw [href e, one, Pi.single_eq_of_ne he] at hpos
      exact .inr ⟨e, by simpa using hpos, (hinum e (by simpa using hpos)).symm⟩
  · rintro (rfl | ⟨e, hpos, rfl⟩)
    · have hself := href ip
      have hnonneg := hb.nonneg ip
      simp only [one, Pi.single_eq_same] at hself
      exact ⟨ip, by omega, rfl⟩
    · refine ⟨e, ?_, hinum e hpos⟩
      rw [href e]
      omega

/-! ## While a path is followed -/

/-- **No directory lacks a block**: all that its size asks for are there. -/
def Mapped (s : State) : Prop :=
  ∀ d, s.image.IsDir d → ∀ bn, bn * BSIZE < (s.dinode d).size → s.blocks d bn ≠ 0

/-- **The call holds the references `h` more than in state `b`, and has loaded inodes into the cache.** -/
structure Trail (b t : State) (h : InodePtr → ℕ) : Prop where
  cache : Cache t
  words : Words b → Words t
  ref : ∀ e, (t.icache e).ref = (b.icache e).ref + h e
  inum : ∀ e, 0 < (b.icache e).ref → (t.icache e).inum = (b.icache e).inum
  image : t.image = b.image
  proc : t.proc = b.proc
  ninodes : t.ninodes = b.ninodes
  blocks : Mapped b → t.blocks = b.blocks

namespace Trail

theorem refl (hb : Cache b) : Trail b b 0 :=
  ⟨hb, id, fun e => by simp, fun _ _ => rfl, rfl, rfl, rfl, fun _ => rfl⟩

theorem ref_pos (ht : Trail b t h) (hb : Cache b) {e : InodePtr} (he : 0 < h e) :
    0 < (t.icache e).ref := by
  have href := ht.ref e
  have hnonneg := hb.nonneg e
  omega

/-- The inodes in the cache, with one reference more. -/
theorem cached (ht : Trail b t (one ip)) (hb : Cache b) :
    t.cached = insert (t.icache ip).inum b.cached := cached_eq_insert hb ht.ref ht.inum

section

variable (ht : Trail b t h)

include ht

/-- **An entry changes.** -/
theorem rewrite {c : Cached} (hb : Cache b) (href : c.ref = (b.icache ip).ref + k ip)
    (hrest : ∀ e, e ≠ ip → k e = h e) (hdev : 0 < c.ref → c.dev = ROOTDEV)
    (hunique : 0 < c.ref → ∀ e, e ≠ ip → 0 < (t.icache e).ref → (t.icache e).inum ≠ c.inum)
    (hinum : 0 < (b.icache ip).ref → c.inum = (t.icache ip).inum)
    (hcoherent : 0 < c.ref → c.valid = true → t.dinode c.inum = c.dinode ∧ c.type ≠ 0)
    (hword : Words t → 0 < c.ref → c.valid = true → (t.setCached ip c).WordKept ip) :
    Trail b (t.setCached ip c) k := by
  have hself : (t.setCached ip c).icache ip = c := Function.update_self ..
  have hother : ∀ e, e ≠ ip → (t.setCached ip c).icache e = t.icache e := fun e he =>
    Function.update_of_ne he ..
  have hnonneg := hb.nonneg ip
  refine ⟨⟨⟨?_, ?_, fun e e' he he' heq => ?_⟩, ?_⟩, fun hwords => ?_, ?_, ?_, ht.image, ht.proc, ht.ninodes,
    ht.blocks⟩
  · exact (State.forall_setCached fun _ v => 0 ≤ v.ref).mpr ⟨by omega, fun e _ => ht.cache.nonneg e⟩
  · exact (State.forall_setCached fun _ v => 0 < v.ref → v.dev = ROOTDEV).mpr
      ⟨hdev, fun e _ => ht.cache.dev e⟩
  · by_cases hei : e = ip <;> by_cases hei' : e' = ip
    · rw [hei, hei']
    · rw [hei, hself] at he heq
      rw [hother e' hei'] at he' heq
      exact absurd heq.symm (hunique he e' hei' he')
    · rw [hei', hself] at he' heq
      rw [hother e hei] at he heq
      exact absurd heq (hunique he' e hei he)
    · rw [hother e hei] at he heq
      rw [hother e' hei'] at he' heq
      exact ht.cache.unique e e' he he' heq
  · exact (State.forall_setCached fun _ v => 0 < v.ref → v.valid = true →
      t.dinode v.inum = v.dinode ∧ v.type ≠ 0).mpr ⟨hcoherent, fun e _ => ht.cache.coherent e⟩
  · refine (State.forall_setCached fun e v => 0 < v.ref → v.valid = true →
      (t.setCached ip c).WordKept e).mpr ⟨hword (ht.words hwords), fun e he hpos hv => ?_⟩
    rw [State.WordKept, hother e he]
    exact ht.words hwords e hpos hv
  · refine (State.forall_setCached fun e v => v.ref = (b.icache e).ref + k e).mpr ⟨href, fun e he => ?_⟩
    rw [hrest e he]
    exact ht.ref e
  · exact (State.forall_setCached fun e v => 0 < (b.icache e).ref → v.inum = (b.icache e).inum).mpr
      ⟨fun he => (hinum he).trans (ht.inum ip he), fun e _ => ht.inum e⟩

/-- An entry in use changes, but not what it says about its inode. -/
theorem setCached {c : Cached} (hb : Cache b) (hpos : 0 < (t.icache ip).ref)
    (hdev : c.dev = (t.icache ip).dev) (hinum : c.inum = (t.icache ip).inum)
    (href : c.ref = (b.icache ip).ref + k ip) (hrest : ∀ e, e ≠ ip → k e = h e)
    (hvalid : c.valid = (t.icache ip).valid) (hdinode : c.dinode = (t.icache ip).dinode)
    (hlast : c.last = (t.icache ip).last) : Trail b (t.setCached ip c) k := by
  refine ht.rewrite hb href hrest (fun _ => hdev.trans (ht.cache.dev ip hpos))
    (fun _ e he hpos' heq => he (ht.cache.unique e ip hpos' hpos (heq.trans hinum)))
    (fun _ => hinum) (fun _ hv => ?_) fun hwords _ hv =>
      (State.wordKept_setCached rfl rfl hinum hlast).mpr (hwords ip hpos (hvalid.symm.trans hv))
  obtain ⟨hsame, htype⟩ := ht.cache.coherent ip hpos (hvalid.symm.trans hv)
  constructor
  · rw [hdinode, hinum]
    exact hsame
  · rw [show c.type = (t.icache ip).type from congrArg Dinode.type hdinode]
    exact htype

/-- Only the lock of an entry changes. -/
theorem setLocked (hb : Cache b) (hpos : 0 < (t.icache ip).ref) (locked : Bool) :
    Trail b (t.setCached ip { t.icache ip with locked := locked }) h :=
  ht.setCached hb hpos rfl rfl (ht.ref ip) (fun _ _ => rfl) rfl rfl rfl

/-- The file table is not part of what is related. -/
theorem setFile (f : FilePtr) (v : FileEntry) : Trail b (t.setFile f v) h :=
  ⟨⟨⟨ht.cache.nonneg, ht.cache.dev, ht.cache.unique⟩, ht.cache.coherent⟩, ht.words, ht.ref, ht.inum,
    ht.image, ht.proc, ht.ninodes, ht.blocks⟩

/-! ## Operations -/

/-- What is read after `ilock` is what is on disk. -/
theorem view (hpos : 0 < (t.icache ip).ref) (hvalid : (t.icache ip).valid = true) :
    b.image.dinode (t.icache ip).inum = (t.icache ip).dinode := by
  rw [← ht.image]
  exact (ht.cache.coherent ip hpos hvalid).1

/-- Reading a directory allocates nothing if its blocks are there. -/
theorem fill {off n : ℕ} (hpos : 0 < (t.icache dp).ref) (hvalid : (t.icache dp).valid = true)
    (hdir : (t.icache dp).type = T_DIR) (hle : 0 < n → off + n ≤ (t.icache dp).size) :
    Trail b (t.fill dp off n) h := by
  refine ⟨⟨⟨ht.cache.nonneg, ht.cache.dev, ht.cache.unique⟩, ht.cache.coherent⟩, ht.words, ht.ref, ht.inum,
    ht.image, ht.proc, ht.ninodes, fun hmapped => ?_⟩
  have hview := ht.view hpos hvalid
  rw [← ht.blocks hmapped]
  refine Function.update_eq_self_iff.mpr (funext fun bn => if_neg ?_)
  rintro (hextent | ⟨hn, -, hlt, hzero⟩)
  · rw [hdir] at hextent
    cases hextent
  · rw [ht.blocks hmapped] at hzero
    refine hmapped _ ((congrArg Dinode.type hview).trans hdir) bn (hlt.trans_le ?_) hzero
    rw [← State.image_dinode, hview]
    exact hle hn

/-- Locking an inode that is referred to. -/
theorem ilock (hb : Cache b) (hpos : 0 < (t.icache ip).ref) (hfree : (t.icache ip).locked = false) :
    Post (t.ilock ip)
      (fun t' => Trail b t' h ∧ (t'.icache ip).valid = true ∧
        ∀ e, (t'.icache e).inum = (t.icache e).inum)
      (fun e => e ≠ .blocked ∧ ¬ b.image.Used (t.icache ip).inum) := by
  simp only [State.ilock, post_ite]
  refine ⟨fun hlt => by omega, fun _ => ⟨fun hl => ?_, fun _ => ⟨fun hv => ?_, fun hv => ⟨fun hz => ?_,
    fun hz => ?_⟩⟩⟩⟩
  · rw [hfree] at hl
    cases hl
  · exact ⟨ht.setLocked hb hpos true, by simp [State.setCached, hv],
      State.setCached_kept Cached.inum rfl⟩
  · refine ⟨notBlocked_panic _, ?_⟩
    rw [← ht.image]
    exact not_not.mpr hz
  · refine ⟨ht.rewrite hb (ht.ref ip) (fun _ _ => rfl) (fun _ => ht.cache.dev ip hpos)
      (fun _ e he hpos' heq => he (ht.cache.unique e ip hpos' hpos heq)) (fun _ => rfl)
      (fun _ _ => ⟨rfl, hz⟩) (fun _ _ _ => .inr ?_), by simp [State.setCached, State.load],
      State.setCached_kept Cached.inum rfl⟩
    simp only [State.setCached, Function.update_self]
    rfl

theorem iunlock (hb : Cache b) (hpos : 0 < (t.icache ip).ref)
    (hlocked : (t.icache ip).locked = true) : Post (t.iunlock ip)
      (fun t' => Trail b t' h ∧ ∀ e, (t'.icache e).inum = (t.icache e).inum ∧
        (t'.icache e).valid = (t.icache e).valid) (fun _ => False) := by
  simp only [State.iunlock, post_ite]
  refine ⟨fun hn => ?_, fun _ => ⟨ht.setLocked hb hpos false, fun e =>
    ⟨State.setCached_kept Cached.inum (by rfl) e, State.setCached_kept Cached.valid (by rfl) e⟩⟩⟩
  obtain hn | hn := hn
  · rw [hlocked] at hn
    cases hn
  · omega

/-- One reference more, to an inode. -/
theorem igetOrPanic (hb : Cache b) (i : ℕ) : Post (t.igetOrPanic ROOTDEV i)
    (fun r => Trail b r.2 (h + one r.1) ∧ (r.2.icache r.1).inum = i ∧ Fits t.cached i ∧
      ∀ e, 0 < (t.icache e).ref → (r.2.icache e).inum = (t.icache e).inum ∧
        (r.2.icache e).valid = (t.icache e).valid)
    (fun e => e ≠ .blocked ∧ ¬ Fits t.cached i) := by
  refine (ht.cache.toEntries.igetOrPanic i).imp fun r hr => ?_
  obtain ⟨ip, t'⟩ := r
  have hsingle : ∀ e, e ≠ ip → (h + one ip) e = h e := fun e he => by simp [one, he]
  have hself : (h + one ip) ip = h ip + 1 := by simp [one]
  obtain ⟨hpos, hinum, ht'⟩ | ⟨hzero, hmissing, ht'⟩ := hr
  · dsimp only at hpos hinum ht' ⊢
    subst ht'
    refine ⟨ht.setCached hb hpos rfl rfl ?_ hsingle rfl rfl rfl, by simp [State.setCached, hinum],
      .inl (mem_cached.mpr ⟨ip, hpos, hinum⟩), fun e _ =>
        ⟨State.setCached_kept Cached.inum (by rfl) e, State.setCached_kept Cached.valid (by rfl) e⟩⟩
    simp only [hself, ht.ref ip]
    push_cast
    ring
  · dsimp only at hzero ht' ⊢
    subst ht'
    have href := ht.ref ip
    have hnonneg := hb.nonneg ip
    refine ⟨ht.rewrite hb ?_ hsingle (fun _ => rfl) (fun _ e _ hpos heq => ?_) (fun hpos => by omega)
      (by simp) (by simp), by simp [State.setCached], Entries.fits_of_free hzero i, fun e hpos => ?_⟩
    · simp only [hself]
      push_cast
      omega
    · exact hmissing (mem_cached.mpr ⟨e, hpos, heq⟩)
    · have he : e ≠ ip := by
        rintro rfl
        omega
      simp [State.setCached, he]

end

/-- One reference less, to an inode that is not freed. -/
theorem iput (ht : Trail b t (k + one ip)) (hb : Cache b) (hfree : (t.icache ip).locked = false)
    (hkeep : ¬ t.Frees ip) : Post (t.iput ip)
      (fun t' => Trail b t' k ∧ ∀ e, (t'.icache e).inum = (t.icache e).inum) (fun _ => False) := by
  have hpos := ht.ref_pos hb (e := ip) (by simp [one])
  simp only [State.iput, post_ite]
  refine ⟨fun hl => ?_, fun _ => ⟨fun hfrees => absurd hfrees hkeep, fun _ =>
    ⟨?_, State.setCached_kept Cached.inum rfl⟩⟩⟩
  · rw [hfree] at hl
    cases hl
  · refine ht.setCached hb hpos rfl rfl ?_ (fun e he => by simp [one, he]) rfl rfl rfl
    simp only [ht.ref ip, Pi.add_apply, one, Pi.single_eq_same]
    push_cast
    ring

/-- `dirlookup` finds what the name stands for. -/
theorem dirlookup (ht : Trail b t h) (hb : Cache b) (hpos : 0 < (t.icache dp).ref)
    (hvalid : (t.icache dp).valid = true) (hdir : (t.icache dp).type = T_DIR) (name : Name) :
    Post (t.dirlookup dp name)
      (fun r => match r.1 with
        | none => Trail b r.2 h ∧ r.2.icache = t.icache ∧ b.image.lookup (t.icache dp).inum name = none
        | some (ip, _) => b.image.lookup (t.icache dp).inum name = some (r.2.icache ip).inum ∧
            Trail b r.2 (h + one ip) ∧ Fits t.cached (r.2.icache ip).inum ∧ ∀ e, 0 < (t.icache e).ref →
              (r.2.icache e).inum = (t.icache e).inum ∧ (r.2.icache e).valid = (t.icache e).valid)
      (fun e => e ≠ .blocked ∧
        (∀ j, b.image.lookup (t.icache dp).inum name = some j → ¬ Fits t.cached j) ∧
        (b.image.lookup (t.icache dp).inum name = none → (t.icache dp).size % DIRENT ≠ 0)) := by
  have hsize := congrArg Dinode.size (ht.view hpos hvalid)
  rw [← ht.image] at hsize ⊢
  rw [t.dirlookup_eq hdir hsize]
  unfold Image.lookup
  cases hfind : t.image.find (t.icache dp).inum name with
  | none =>
    dsimp only
    split
    · exact ⟨ht.fill hpos hvalid hdir fun _ => by simp, rfl, rfl⟩
    next hsize => exact ⟨notBlocked_panic _, by simp, fun _ => hsize⟩
  | some k =>
    have hread : Trail b (t.scanned dp 0 (some k)) h := by
      refine ht.fill hpos hvalid hdir fun _ => ?_
      have hk := mem_range.mp (mem_of_find?_eq_some hfind)
      rw [hsize] at hk
      simp only [Option.elim, DIRENT, Cached.dinode] at hk ⊢
      omega
    show Post ((t.scanned dp 0 (some k)).igetOrPanic (t.icache dp).dev _ >>= _) _ _
    rw [ht.cache.dev dp hpos]
    refine (hread.igetOrPanic hb _).bind (fun r hr => ?_) fun e he => ⟨he.1, ?_, by simp⟩
    · obtain ⟨ht', hinum, hfits, hsame⟩ := hr
      exact ⟨by rw [hinum]; rfl, ht', by rw [hinum]; exact hfits, hsame⟩
    · rintro j ⟨⟩
      exact he.2

/-- `isdirempty` finds out whether it is, and changes nothing in the cache. -/
theorem isdirempty (ht : Trail b t h) (hpos : 0 < (t.icache dp).ref)
    (hvalid : (t.icache dp).valid = true) (hdir : (t.icache dp).type = T_DIR) :
    Post (t.isdirempty dp) (fun r => Trail b r.2 h ∧ r.2.icache = t.icache) NotBlocked := by
  unfold State.isdirempty
  simp only [State.findDirent]
  split
  next k hfind =>
    refine ⟨ht.fill hpos hvalid hdir fun hn => ?_, rfl⟩
    have hk := mem_range.mp (mem_of_find?_eq_some hfind)
    simp only [Option.elim, DIRENT] at hk hn ⊢
    omega
  next =>
    split
    · refine ⟨ht.fill hpos hvalid hdir fun hn => ?_, rfl⟩
      simp only [Option.elim] at hn ⊢
      omega
    · exact notBlocked_panic _

end Trail

/-! ## Paths -/

/-- An inode that nobody refers to and that has no links is empty. -/
def Bare (s : State) : Prop := ∀ i, i ∉ s.cached → (s.dinode i).nlink = 0 → (s.dinode i).size = 0

/-- `iput` does not free the inode: it is referred to, it has links, or it is free. -/
def Lasting (s : State) (i : ℕ) : Prop :=
  i ∈ s.cached ∨ (s.dinode i).nlink ≠ 0 ∨ (s.dinode i).type = 0

/-- **What has a name is not freed** by a call that has only looked at it. -/
structure Linked (s : State) : Prop where
  root : Lasting s ROOTINO
  entry : ∀ d name j, s.image.IsDir d → s.image.lookup d name = some j → Lasting s j

/-- **Nothing keeps a path from being followed**: there is room in the cache, directories end with an
entry, and what has a name is allocated. -/
structure Sound (s : State) (p : ℕ) : Prop extends Linked s where
  room : s.cached.card + 2 ≤ NINODE
  whole : ∀ d, s.image.IsDir d → (s.dinode d).size % DIRENT = 0
  used_root : s.image.Used ROOTINO
  used_cwd : ∀ i, s.cwdInum p = some i → s.image.Used i
  used : ∀ d name j, s.image.IsDir d → s.image.lookup d name = some j → s.image.Used j

/-- What is not empty is not freed. -/
theorem Bare.lasting (hbare : Bare s) (hsize : (s.dinode i).size ≠ 0) : Lasting s i := by
  by_contra hnot
  simp only [Lasting, not_or, not_not] at hnot
  exact hsize (hbare i hnot.1 hnot.2.1)

/-- An inode that a path has come through is not freed. -/
theorem Trail.not_frees (ht : Trail b t h) (hb : Cache b) (hip : 0 < h ip)
    (hlast : Lasting b (t.icache ip).inum) : ¬ t.Frees ip := by
  rintro ⟨hvalid, hnlink, href⟩
  have hpos : 0 < (t.icache ip).ref := by omega
  have hzero : (b.icache ip).ref = 0 := by
    have hnonneg := hb.nonneg ip
    have heq := ht.ref ip
    omega
  have hview := ht.view hpos hvalid
  rcases hlast with hmem | hlinks | hfree
  · -- an entry that was in use before would be another one
    obtain ⟨e, he, hinum⟩ := mem_cached.mp hmem
    have hpos' : 0 < (t.icache e).ref := by
      rw [ht.ref e]
      omega
    have heq := ht.cache.unique e ip hpos' hpos ((ht.inum e he).trans hinum)
    rw [heq] at he
    omega
  · rw [← State.image_dinode, hview] at hlinks
    exact hlinks hnlink
  · rw [← State.image_dinode, hview] at hfree
    exact (ht.cache.coherent ip hpos hvalid).2 hfree

section Put

variable {L : List InodePtr} (ht : Trail b t (k + one ip)) (hb : Cache b)

include ht hb

/-- A reference that was taken on the way is given back. -/
theorem Trail.put (hl : Locks L t) (hip : ip ∉ L) : (call (.iput ip)).wp (perform p) anyway
    (fun e => e ≠ .blocked ∧ ¬ Lasting b (t.icache ip).inum)
    (fun _ t' => Locks L t' ∧ (Lasting b (t.icache ip).inum →
      Trail b t' k ∧ ∀ e, (t'.icache e).inum = (t.icache e).inum)) t := by
  by_cases hlast : Lasting b (t.icache ip).inum
  · refine fun _ => post_map.mpr (((locks_iput hl hip).and
      (ht.iput hb (hl.of_not_mem hip) (ht.not_frees hb (by simp [one]) hlast))).mono (fun t' hr => ?_)
        fun _ he => he.2.elim)
    exact ⟨hr.1, fun _ => hr.2⟩
  · exact (Unblocked.iput hip t hl).weaken (fun _ _ hl' => ⟨hl', fun h => absurd h hlast⟩)
      fun _ he => ⟨he, hlast⟩

theorem Trail.unlockPut (hl : Locks (ip :: L) t) (hip : ip ∉ L) : (iunlockput ip).wp (perform p) anyway
    (fun e => e ≠ .blocked ∧ ¬ Lasting b (t.icache ip).inum)
    (fun _ t' => Locks L t' ∧ (Lasting b (t.icache ip).inum →
      Trail b t' k ∧ ∀ e, (t'.icache e).inum = (t.icache e).inum)) t := by
  have hpos := ht.ref_pos hb (e := ip) (by simp [one])
  refine Prog.wp_bind.mpr fun _ => post_map.mpr (((locks_iunlock hl hip).and
    (ht.iunlock hb hpos (hl.of_mem mem_cons_self))).mono (fun t' hr => ?_) fun _ he => he.2.elim)
  obtain ⟨hl', ht', hsame⟩ := hr
  have hput := ht'.put (p := p) hb hl' hip
  rw [(hsame ip).1] at hput
  refine hput.mono fun _ t'' ⟨hl'', hrest⟩ => ⟨hl'', fun hlast => ?_⟩
  exact ⟨(hrest hlast).1, fun e => ((hrest hlast).2 e).trans (hsame e).1⟩

end Put

/-- Locking an inode that has been found, with no other lock held. -/
theorem Trail.lock (ht : Trail b t h) (hb : Cache b) (hip : 0 < h ip) (hl : Locks [] t) :
    (call (.ilock ip)).wp (perform p) anyway
      (fun e => e ≠ .blocked ∧ ¬ b.image.Used (t.icache ip).inum)
      (fun _ t₁ => Locks [ip] t₁ ∧ Trail b t₁ h ∧ (t₁.icache ip).valid = true ∧
        ∀ e, (t₁.icache e).inum = (t.icache e).inum) t :=
  fun _ => post_map.mpr (((locks_ilock hl not_mem_nil).and
    (ht.ilock hb (ht.ref_pos hb hip) (hl.of_not_mem not_mem_nil))).mono (fun _ hr => hr)
      fun _ he => he.2)

/-- A name is looked up in a directory that is locked. -/
theorem Trail.lookupName {d : ℕ} (ht : Trail b t (one dp)) (hb : Cache b) (hl : Locks [dp] t)
    (hvalid : (t.icache dp).valid = true) (hdir : (t.icache dp).type = T_DIR)
    (hd : (t.icache dp).inum = d) (name : Name) : (call (.dirlookup dp name)).wp (perform p) anyway
      (fun e => e ≠ .blocked ∧ (∀ j, b.image.lookup d name = some j → ¬ Fits (insert d b.cached) j) ∧
        ¬ Sound b p)
      (fun r t' => Locks [dp] t' ∧ match r with
        | none => Trail b t' (one dp) ∧ t'.icache = t.icache ∧ b.image.lookup d name = none
        | some (ip, _) => Trail b t' (one ip + one dp) ∧
            b.image.lookup d name = some (t'.icache ip).inum ∧
            Fits (insert d b.cached) (t'.icache ip).inum ∧ (t'.icache dp).inum = d) t := by
  intro _
  have hpos := ht.ref_pos hb (e := dp) (by simp [one])
  have hcached := ht.cached hb
  have hview := ht.view hpos hvalid
  have hcalm := calm_perform (p := p) t (o := .dirlookup dp name) rfl
  rw [hd] at hcached hview
  refine (hcalm.and (ht.dirlookup hb hpos hvalid hdir name)).mono (fun r hr => ?_) fun e he => ?_
  · obtain ⟨hsame, hr⟩ := hr
    refine ⟨hl.congr hsame, ?_⟩
    rw [hd, hcached] at hr
    obtain ⟨_ | ⟨ip, off⟩, t'⟩ := r
    · exact hr
    · obtain ⟨hfound, ht', hfits, hkeep⟩ := hr
      exact ⟨by rwa [add_comm], hfound, hfits, (hkeep dp hpos).1.trans hd⟩
  · obtain ⟨hne, -, hroom, hwhole⟩ := he
    rw [hd, hcached] at hroom
    rw [hd] at hwhole
    refine ⟨hne, hroom, fun hs => ?_⟩
    cases hj : b.image.lookup d name with
    | none =>
      have hsize := hs.whole d ((congrArg Dinode.type hview).trans hdir)
      rw [← State.image_dinode, hview] at hsize
      exact hwhole hj hsize
    | some j =>
      have hcard := Finset.card_insert_le d b.cached
      have hspare := hs.room
      exact hroom j hj (.inr (by omega))

/-- Why the loop of `namex` stops. -/
def LoopStops (b : State) (p : ℕ) (nameiparent : Bool) (i : ℕ) (names : List Name) (e : Fault) : Prop :=
  e ≠ .blocked ∧ b.image.resolve b.cached nameiparent i names = none ∧
    ¬ (Sound b p ∧ b.image.Used i ∧ Lasting b i)

/-- What the loop of `namex` finds. -/
def LoopFinds (b : State) (nameiparent : Bool) (i : ℕ) (names : List Name) :
    Option (InodePtr × Name) → State → Prop
  | none, t => b.image.walk nameiparent i names = none ∧ (Linked b → Lasting b i → Trail b t 0)
  | some (ip, name), t => Trail b t (one ip) ∧
      b.image.resolve b.cached nameiparent i names = some ((t.icache ip).inum, name) ∧
      (Linked b → Lasting b i → Lasting b (t.icache ip).inum)

/-- The loop gives up. -/
theorem Trail.giveUp {nameiparent : Bool} {names : List Name} (ht : Trail b t (one ip))
    (hb : Cache b) (hl : Locks [ip] t) (hi : (t.icache ip).inum = i)
    (hwalk : b.image.walk nameiparent i names = none) :
    (do iunlockput ip; return none : M (Option (InodePtr × Name))).wp (perform p) anyway
      (LoopStops b p nameiparent i names)
      (fun r t' => Locks [] t' ∧ LoopFinds b nameiparent i names r t') t := by
  subst hi
  rw [← zero_add (one ip)] at ht
  refine (ht.unlockPut hb hl not_mem_nil).seq (fun e he =>
      ⟨he.1, resolve_eq_none hwalk, fun hs => he.2 hs.2.2⟩) fun _ t' ⟨hl', hrest⟩ => ?_
  exact ⟨hl', hwalk, fun _ hlast => (hrest hlast).1⟩

/-- **The loop of `namex` finds what the names lead to**, and does not wait. -/
theorem namexLoop_resolves (hb : Cache b) (nameiparent : Bool) (names : List Name) :
    ∀ (ip : InodePtr) (t : State), Trail b t (one ip) → Locks [] t →
      (Bare b ∨ Linked b ∧ Lasting b (t.icache ip).inum) → (namexLoop nameiparent ip names).wp (perform p) anyway
        (LoopStops b p nameiparent (t.icache ip).inum names)
        (fun r t' => Locks [] t' ∧ LoopFinds b nameiparent (t.icache ip).inum names r t') t := by
  induction names with
  | nil =>
    intro ip t ht hl _
    unfold namexLoop
    cases nameiparent with
    | true =>
      rw [← zero_add (one ip)] at ht
      refine (ht.put hb hl not_mem_nil).seq (fun e he => ⟨he.1, rfl, fun hs => he.2 hs.2.2⟩)
        fun _ t' hrest => ⟨hrest.1, rfl, fun _ hlast => (hrest.2 hlast).1⟩
    | false => exact ⟨hl, ht, rfl, fun _ hlast => hlast⟩
  | cons name rest ih =>
    intro ip t ht hl hkept
    set i := (t.icache ip).inum with hi
    have hdir : ¬ b.image.Used i → b.image.resolve b.cached nameiparent i (name :: rest) = none := by
      intro hfree
      rw [Image.resolve, if_pos]
      exact fun hdir => hfree (IsDir.used hdir)
    unfold namexLoop
    refine (ht.lock hb (by simp [one]) hl).seq (fun e he => ⟨he.1, hdir he.2, fun hs => he.2 hs.2.1⟩)
        fun _ t₁ ht₁ => wp_call_bind rfl ?_
    obtain ⟨hl₁, ht₁, hvalid₁, hinums⟩ := ht₁
    have hinum₁ := hinums ip
    have hpos₁ := ht₁.ref_pos hb (e := ip) (by simp [one])
    have hview : b.image.dinode i = (t₁.icache ip).dinode := by
      rw [hi, ← hinum₁, ht₁.view hpos₁ hvalid₁]
    have htype : (b.image.dinode i).type = (t₁.icache ip).type := congrArg Dinode.type hview
    split
    next hfile =>
      refine ht₁.giveUp hb hl₁ hinum₁ ?_
      rw [Image.walk, htype, if_pos hfile]
    next hdir =>
      rw [not_not] at hdir
      have hisdir : b.image.IsDir i := htype.trans hdir
      split
      next hlast =>
        refine fun _ => post_map.mpr (((locks_iunlock hl₁ not_mem_nil).and
          (ht₁.iunlock hb hpos₁ (hl₁.of_mem mem_cons_self))).mono (fun t₂ hr => ?_)
            fun _ he => he.2.elim)
        obtain ⟨hl₂, ht₂, hsame⟩ := hr
        have hinum₂ : (t₂.icache ip).inum = i := (hsame ip).1.trans hinum₁
        refine ⟨hl₂, ht₂, ?_, fun _ h => by rwa [hinum₂]⟩
        rw [Image.resolve, htype, if_neg (not_not.mpr hdir), if_pos hlast, hinum₂]
      next hlast =>
        -- what the two ways of following the path do in this step
        have hstep : b.image.resolve b.cached nameiparent i (name :: rest) =
            (b.image.lookup i name).bind fun next => if Fits (insert i b.cached) next then
              b.image.resolve b.cached nameiparent next rest else none := by
          rw [Image.resolve, htype, if_neg (not_not.mpr hdir), if_neg hlast]
        have hwalk : b.image.walk nameiparent i (name :: rest) =
            (b.image.lookup i name).bind fun next => b.image.walk nameiparent next rest := by
          rw [Image.walk, htype, if_neg (not_not.mpr hdir), if_neg hlast]
        have hlookup : (call (.dirlookup ip name)).wp (perform p) anyway
            (LoopStops b p nameiparent i (name :: rest)) _ t₁ :=
          (ht₁.lookupName hb hl₁ hvalid₁ hdir hinum₁ name).weaken (fun _ _ hq => hq)
            fun e he => ⟨he.1, by
              rw [hstep]
              cases hj : b.image.lookup i name with
              | none => rfl
              | some j => exact if_neg (he.2.1 j hj), fun hs => he.2.2 hs.1⟩
        refine hlookup.bind fun r t₂ hr => ?_
        obtain ⟨hl₂, hr⟩ := hr
        cases r with
        | none =>
          obtain ⟨ht₂, hsame, hmissing⟩ := hr
          refine ht₂.giveUp hb hl₂ (by rw [hsame, hinum₁]) ?_
          rw [hwalk, hmissing]
          rfl
        | some r =>
          obtain ⟨next, off⟩ := r
          obtain ⟨ht₂, hfound, hfits, hinum₂⟩ := hr
          rw [hfound, bind_some] at hstep hwalk
          rw [if_pos hfits] at hstep
          -- the directory has an entry or a link, so it is not freed
          have hlasting : Lasting b (t₂.icache ip).inum := by
            rw [hinum₂]
            exact hkept.elim (fun hbare => hbare.lasting (size_ne_zero_of_lookup hfound)) And.right
          refine (ht₂.unlockPut hb hl₂ not_mem_nil).seq (fun e he => absurd hlasting he.2)
            fun _ t₃ hrest => ?_
          obtain ⟨hl₃, hrest⟩ := hrest
          obtain ⟨ht₃, hinum₃⟩ := hrest hlasting
          rw [← hinum₃ next] at hstep hwalk hfound
          have hkept₃ : Bare b ∨ Linked b ∧ Lasting b (t₃.icache next).inum :=
            hkept.imp_right fun h => ⟨h.1, h.1.entry _ _ _ hisdir hfound⟩
          refine (ih next t₃ ht₃ hl₃ hkept₃).weaken (fun r t' hr => ⟨hr.1, ?_⟩) fun e he => ?_
          · replace hr := hr.2
            obtain _ | ⟨ip', name'⟩ := r
            · exact ⟨hwalk.trans hr.1, fun hb' _ => hr.2 hb' (hb'.entry _ _ _ hisdir hfound)⟩
            · exact ⟨hr.1, hstep.trans hr.2.1, fun hb' _ =>
                hr.2.2 hb' (hb'.entry _ _ _ hisdir hfound)⟩
          · refine ⟨he.1, hstep.trans he.2.1, fun hs => he.2.2 ⟨hs.1, ?_, ?_⟩⟩
            · exact hs.1.used _ _ _ hisdir hfound
            · exact hs.1.entry _ _ _ hisdir hfound

section Path

variable {cwd : InodePtr} (hb : Cache b) (hl : Locks [] b) (hcwd : (b.proc p).cwd = some cwd)
  (hpos : 0 < (b.icache cwd).ref)

include hb hl hcwd hpos

theorem namexStart_resolves (path : Path) : (namexStart path).wp (perform p) anyway
    (fun e => e ≠ .blocked ∧ start b.cached (b.cwdInum p) path = none ∧ ¬ Sound b p)
    (fun ip t => Trail b t (one ip) ∧ Locks [] t ∧
      start b.cached (b.cwdInum p) path = some (t.icache ip).inum ∧
      (Linked b → Lasting b (t.icache ip).inum) ∧ (Sound b p → b.image.Used (t.icache ip).inum)) b := by
  unfold namexStart
  split
  next hroot =>
    have hstart : start b.cached (b.cwdInum p) path =
        if Fits b.cached ROOTINO then some ROOTINO else none := if_pos hroot
    refine fun _ => ((sameLocks_igetOrPanic b ROOTDEV ROOTINO).and
      ((Trail.refl hb).igetOrPanic hb ROOTINO)).mono (fun r hr => ?_) fun e he => ⟨he.1, ?_, fun hs => ?_⟩
    · obtain ⟨hsame, ht, hinum, hfits, -⟩ := hr
      rw [zero_add] at ht
      refine ⟨ht, hl.congr hsame, ?_, fun hb' => ?_, fun hs => ?_⟩
      · rw [hstart, if_pos hfits, hinum]
      · rw [hinum]
        exact hb'.root
      · rw [hinum]
        exact hs.used_root
    · rw [hstart, if_neg he.2.2]
    · have hspare := hs.room
      exact he.2.2 (.inr (by omega))
  next hrel =>
    have hread : perform p b .cwd = .ok (cwd, b) := by simp [perform, hcwd]
    have hinum : ((b.setCached cwd { b.icache cwd with ref := (b.icache cwd).ref + 1 }).icache cwd).inum =
        (b.icache cwd).inum := by simp [State.setCached]
    refine wp_call_bind hread fun _ => ?_
    refine ⟨(Trail.refl hb).setCached hb hpos rfl rfl ?_ (fun e he => by simp [one, he]) rfl rfl rfl,
      hl.congr (SameLocks.setCached b rfl), ?_, fun _ => ?_, fun hs => ?_⟩
    · simp [one]
    · rw [start, if_neg hrel, State.cwdInum, hcwd]
      exact congrArg some hinum.symm
    · refine .inl (mem_cached.mpr ⟨cwd, hpos, hinum.symm⟩)
    · refine hs.used_cwd _ ?_
      rw [State.cwdInum, hcwd]
      exact congrArg some hinum.symm

/-- **`namex` finds what the path leads to**, and does not wait. -/
theorem namex_resolves (hkept : Bare b ∨ Linked b) (path : Path) (nameiparent : Bool) :
    (namex path nameiparent).wp (perform p) anyway
      (fun e => e ≠ .blocked ∧
        b.image.resolvePath b.cached (b.cwdInum p) nameiparent path = none ∧ ¬ Sound b p)
      (fun r t => Locks [] t ∧ match r with
        | none => b.image.walkPath (b.cwdInum p) nameiparent path = none ∧ (Linked b → Trail b t 0)
        | some (ip, name) => Trail b t (one ip) ∧
            b.image.resolvePath b.cached (b.cwdInum p) nameiparent path =
              some ((t.icache ip).inum, name) ∧ (Linked b → Lasting b (t.icache ip).inum)) b := by
  unfold namex
  refine (namexStart_resolves hb hl hcwd hpos path).seq (fun e he =>
      ⟨he.1, by rw [resolvePath, he.2.1]; rfl, he.2.2⟩)
      fun ip t ⟨ht, hlt, hstart, hlast, hused⟩ => ?_
  have horigin := origin_of_start hstart
  have hkept' := hkept.imp_right fun h => And.intro h (hlast h)
  refine (namexLoop_resolves hb nameiparent _ ip t ht hlt hkept').weaken
    (fun r t' ⟨hl', hr⟩ => ⟨hl', ?_⟩) fun e he => ⟨he.1, ?_, fun hs => ?_⟩
  · obtain _ | ⟨ip', name⟩ := r
    · refine ⟨?_, fun hb' => hr.2 hb' (hlast hb')⟩
      rw [walkPath, horigin]
      exact hr.1
    · refine ⟨hr.1, ?_, fun hb' => hr.2.2 hb' (hlast hb')⟩
      rw [resolvePath, hstart]
      exact hr.2.1
  · rw [resolvePath, hstart]
    exact he.2.1
  · exact he.2.2 ⟨hs, hused hs, hlast hs.toLinked⟩

theorem namei_resolves (hkept : Bare b ∨ Linked b) (path : Path) : (namei path).wp (perform p) anyway
    (fun e => e ≠ .blocked ∧ b.image.resolvePath b.cached (b.cwdInum p) false path = none ∧ ¬ Sound b p)
    (fun r t => Locks [] t ∧ match r with
      | none => b.image.walkPath (b.cwdInum p) false path = none ∧ (Linked b → Trail b t 0)
      | some ip => Trail b t (one ip) ∧ (∃ name, b.image.resolvePath b.cached (b.cwdInum p) false path =
          some ((t.icache ip).inum, name)) ∧ (Linked b → Lasting b (t.icache ip).inum)) b := by
  refine (namex_resolves hb hl hcwd hpos hkept path false).bind fun r t ⟨hlt, hr⟩ => ⟨hlt, ?_⟩
  obtain _ | ⟨ip, name⟩ := r
  · exact hr
  · exact ⟨hr.1, ⟨name, hr.2.1⟩, hr.2.2⟩

end Path

end Sysfile
