/-
# What a path leads to

* `elems_eq_components`: repeated calls of `skipelem` give the non-empty parts between the slashes of a
  path, each cut to its first `DIRSIZ` bytes.
* `walk_eq_foldlM`: following them is a left fold of looking up one name in one directory.
* `walk_eq_parent`: the last step of the fold is looking up the last name in the directory above.
* `namei_eq_fold`: `namei` finds what the fold gives, and so does a caller of `nameiparent` who looks up the
  last name; on the way the blocks of the directories are read, which ends if they are short.
-/
import Xv6.DirLookup
import Xv6.SelfDeadlock

namespace Sysfile

open Prog Outcome Image List

/-! ## Elements -/

/-- The parts between slashes that are not empty. -/
def parts (path : Path) : List (List UInt8) := (path.splitOnP (· == slash)).filter (· ≠ [])

/-- The components of a path: what is between slashes, cut to `DIRSIZ` bytes. -/
def components (path : Path) : List Name := (parts path).map (take DIRSIZ)

/-- Slashes before a path do not count. -/
theorem parts_dropWhile (path : Path) : parts (path.dropWhile (· = slash)) = parts path := by
  induction path with
  | nil => rfl
  | cons c path ih =>
    by_cases hc : c = slash
    · rw [dropWhile_cons_of_pos (by simpa using hc), ih]
      unfold parts
      rw [splitOnP_cons_eq_if_modifyHead, if_pos (by simpa using hc)]
      rfl
    · rw [dropWhile_cons_of_neg (by simpa using hc)]

/-- A path that does not start with a slash starts with a part. -/
theorem parts_eq_cons {path : Path} (hne : path ≠ []) (hhead : path.head? ≠ some slash) :
    parts path = path.takeWhile (· ≠ slash) :: parts (path.dropWhile (· ≠ slash)) := by
  set s := path.takeWhile (· ≠ slash) with hs
  have hword : ∀ c ∈ s, (c == slash) = false := fun c hc => by
    simpa using mem_takeWhile_imp hc
  have hsne : s ≠ [] := by
    obtain ⟨c, rest, rfl⟩ := exists_cons_of_ne_nil hne
    have hc : c ≠ slash := by simpa using hhead
    rw [hs, takeWhile_cons_of_pos (by simpa using hc)]
    exact cons_ne_nil _ _
  have hsplit : path = s ++ path.dropWhile (· ≠ slash) := takeWhile_append_dropWhile.symm
  rcases hrest : path.dropWhile (· ≠ slash) with _ | ⟨c, rest⟩
  · rw [hrest, append_nil] at hsplit
    rw [hsplit, parts, splitOnP_eq_singleton hword]
    simp [hsne, parts]
  · have hc : c = slash := by
      have hfalse := head?_dropWhile_not (fun c => decide (c ≠ slash)) path
      rw [hrest] at hfalse
      simpa using hfalse
    subst hc
    rw [hrest] at hsplit
    rw [hsplit, parts, splitOnP_append_cons_of_forall_mem hword slash (beq_self_eq_true _) rest]
    simp [hsne, parts, splitOnP_cons_eq_if_modifyHead]

/-- **The elements of a path are its components.** -/
theorem elems_eq_components (fuel : ℕ) :
    ∀ path : Path, path.length ≤ fuel → elems fuel path = components path := by
  induction fuel with
  | zero =>
    intro path hlen
    obtain rfl := length_eq_zero_iff.mp (Nat.le_zero.mp hlen)
    rfl
  | succ fuel ih =>
    intro path hlen
    unfold elems
    simp only [skipelem]
    rw [components, ← parts_dropWhile]
    set start := path.dropWhile (· = slash) with hstart
    by_cases hempty : start = []
    · rw [if_pos hempty, hempty]
      rfl
    · rw [if_neg hempty]
      have hhead : start.head? ≠ some slash := fun h => by
        have hfalse := head?_dropWhile_not (fun c => decide (c = slash)) path
        rw [← hstart, h] at hfalse
        simp at hfalse
      -- the element has a byte, so that less fuel is enough for the rest
      have hshort : ((start.dropWhile (· ≠ slash)).dropWhile (· = slash)).length ≤ fuel := by
        obtain ⟨c, rest, hcons⟩ := exists_cons_of_ne_nil hempty
        have hc : c ≠ slash := by
          rw [hcons] at hhead
          simpa using hhead
        have hle := (dropWhile_sublist (fun c => decide (c = slash)) (l := path)).length_le
        rw [← hstart, hcons, length_cons] at hle
        rw [hcons, dropWhile_cons_of_pos (by simpa using hc)]
        have h₁ := (dropWhile_sublist (fun c => decide (c = slash))
          (l := rest.dropWhile (· ≠ slash))).length_le
        have h₂ := (dropWhile_sublist (fun c => decide (c ≠ slash)) (l := rest)).length_le
        omega
      dsimp only
      rw [parts_eq_cons hempty hhead, map_cons, ih _ hshort, components, parts_dropWhile]

/-! ## Following them -/

namespace Image

variable (D : Image)

/-- One step on a path: a name, in a directory. -/
def next (i : ℕ) (name : Name) : Option ℕ := if (D.dinode i).type = T_DIR then D.lookup i name else none

/-- **Where a path leads**: the left fold of looking up its components, from the root or the current
directory. -/
def follow (cwd : Option ℕ) (path : Path) : Option ℕ :=
  (origin cwd path).bind fun i => (components path).foldlM D.next i

/-- The directories that are looked into on the way from inode `i`, each with the name. -/
def lookupsFrom : ℕ → List Name → List (ℕ × Name)
  | _, [] => []
  | i, name :: rest =>
    if (D.dinode i).type = T_DIR then (i, name) :: ((D.lookup i name).elim [] fun j => lookupsFrom j rest)
    else []

/-- The directories that are looked into while a path is followed. -/
def lookups (cwd : Option ℕ) (path : Path) : List (ℕ × Name) :=
  (origin cwd path).elim [] fun i => D.lookupsFrom i (components path)

theorem walk_eq_foldlM (names : List Name) :
    ∀ i, D.walk false i names = (names.foldlM D.next i).map fun j => (j, []) := by
  induction names with
  | nil => exact fun i => rfl
  | cons name rest ih =>
    intro i
    rw [Image.walk, foldlM_cons, next]
    by_cases hdir : (D.dinode i).type = T_DIR
    · rw [if_neg (not_not.mpr hdir), if_neg (by simp), if_pos hdir]
      cases D.lookup i name with
      | none => rfl
      | some j => exact ih j
    · rw [if_pos hdir, if_neg hdir]
      rfl

/-- **Stopping one level early**, and looking up the last name. -/
theorem walk_eq_parent {names : List Name} (hne : names ≠ []) : ∀ i, names.foldlM D.next i =
    (D.walk true i names).bind fun r => D.next r.1 r.2 := by
  induction names with
  | nil => exact absurd rfl hne
  | cons name rest ih =>
    intro i
    rw [Image.walk, foldlM_cons]
    by_cases hdir : (D.dinode i).type = T_DIR
    · rw [if_neg (not_not.mpr hdir)]
      rcases rest with _ | ⟨name', rest⟩
      · rw [if_pos ⟨rfl, rfl⟩]
        exact bind_pure (m := Option) _
      · rw [if_neg (by simp), next, if_pos hdir]
        cases D.lookup i name with
        | none => rfl
        | some j => exact ih (cons_ne_nil _ _) j
    · rw [if_pos hdir, next, if_neg hdir]
      rfl

variable {D} {cwd : Option ℕ} {path : Path}

theorem follow_eq_walkPath : D.follow cwd path = (D.walkPath cwd false path).map Prod.fst := by
  rw [follow, walkPath, elems_eq_components _ _ le_rfl]
  cases origin cwd path with
  | none => rfl
  | some i =>
    rw [Option.bind_some, Option.bind_some, walk_eq_foldlM, Option.map_map]
    exact (Option.map_id' ..).symm

theorem follow_eq_parent (hne : components path ≠ []) : D.follow cwd path =
    (D.walkPath cwd true path).bind fun r => D.next r.1 r.2 := by
  rw [follow, walkPath, elems_eq_components _ _ le_rfl]
  cases origin cwd path with
  | none => rfl
  | some i => exact D.walk_eq_parent hne i

/-- Looked into are directories, for the names of the path. -/
theorem isDir_of_mem_lookupsFrom {l : ℕ × Name} {i : ℕ} {names : List Name}
    (hl : l ∈ D.lookupsFrom i names) : D.IsDir l.1 ∧ l.2 ∈ names := by
  fun_induction lookupsFrom D i names with
  | case1 | case3 => exact absurd hl not_mem_nil
  | case2 i name rest hdir ih =>
    rcases mem_cons.mp hl with rfl | hl
    · exact ⟨hdir, mem_cons_self⟩
    · cases hj : D.lookup i name with
      | none =>
        rw [hj] at hl
        exact absurd hl not_mem_nil
      | some j =>
        rw [hj] at hl
        exact (ih j hl).imp_right (mem_cons_of_mem _)

theorem isDir_of_mem_lookups {l : ℕ × Name} (hl : l ∈ D.lookups cwd path) :
    D.IsDir l.1 ∧ l.2.length ≤ DIRSIZ := by
  unfold lookups at hl
  cases ho : origin cwd path with
  | none =>
    rw [ho] at hl
    exact absurd hl not_mem_nil
  | some i =>
    rw [ho] at hl
    obtain ⟨hdir, hmem⟩ := isDir_of_mem_lookupsFrom hl
    obtain ⟨part, -, heq⟩ := mem_map.mp hmem
    rw [← heq]
    exact ⟨hdir, length_take_le _ _⟩

/-- **Every lookup on the way returns on disk**, and with the step of the fold, if the directories are
short: it leaves no buffer locked for the next one. -/
theorem dirlookup_of_mem_lookups {l : ℕ × Name} (hl : l ∈ D.lookups cwd path) (hzero : 0 ∉ l.2)
    (hnear : (D.dinode l.1).size ≤ Fs.NEAR) {sb : Superblock} (devsw : Devsw) {f : Fs}
    (hsb : sb.Layout) (hown : f.Owned sb) (hfree : ∀ a, ¬ f.Locked a)
    (hrefs : ∀ i, 0 ≤ (f.inode i).ref) (hdisk : D.OnDisk f l.1) :
    Post (Fs.dirlookup sb devsw f l.1 l.2)
      (fun r => r.1.map Prod.fst = D.next l.1 l.2 ∧ r.2.disk = f.disk ∧ ∀ a, ¬ r.2.Locked a)
      (fun e => e = .panic "iget: no inodes") := by
  obtain ⟨hdir, hlen⟩ := isDir_of_mem_lookups hl
  have hdir : (D.dinode l.1).type = T_DIR := hdir
  rw [hdisk.dirlookup_eq hzero hlen devsw hsb hown hfree hnear, next, if_pos hdir, Image.lookup]
  cases D.find l.1 l.2 with
  | none => exact ⟨rfl, rfl, hfree⟩
  | some k =>
    refine (Fs.iget_post sb hrefs (D.entry l.1 k).inum).bind ?_ fun e he => he.1
    rintro g ⟨-, htook⟩
    refine ⟨rfl, htook.disk, fun a ha => hfree a ?_⟩
    exact (Fs.locked_congr htook.held a).mp ha

end Image

/-! ## The calls -/

variable {p : ℕ} {b : State}

/-- The last name is looked up by the caller of `nameiparent`. -/
def lookupInParent (path : Path) : M (Option InodePtr) := do
  match ← nameiparent path with
  | none => return none
  | some (dp, name) =>
    call (.ilock dp)
    let r ← call (.dirlookup dp name)
    iunlockput dp
    return r.map Prod.fst

/-- The inode that has been found. -/
def State.found (t : State) (r : Option InodePtr) : Option ℕ := r.map fun ip => (t.icache ip).inum

theorem namei_follows (hb : Ready b p) (path : Path) : (namei path).wp (perform p) anyway
    (fun e => e ≠ .blocked ∧ ¬ Sound b p)
    (fun r t => t.found r = b.image.follow (b.cwdInum p) path) b := by
  obtain ⟨cwd, hcwd, hpos⟩ := hb.cwd
  refine (namei_resolves hb.cache hb.unlocked hcwd hpos hb.kept path).weaken (fun r t ⟨_, hr⟩ => ?_)
    fun e he => ⟨he.1, he.2.2⟩
  rw [follow_eq_walkPath]
  rcases r with _ | ip
  · rw [hr.1]
    rfl
  · obtain ⟨-, ⟨name, hfound⟩, -⟩ := hr
    rw [walkPath_of_resolvePath hfound]
    rfl

theorem lookupInParent_follows (hb : Ready b p) {path : Path} (hne : components path ≠ []) :
    (lookupInParent path).wp (perform p) anyway (fun e => e ≠ .blocked ∧ ¬ Sound b p)
      (fun r t => t.found r = b.image.follow (b.cwdInum p) path) b := by
  rw [follow_eq_parent hne]
  unfold lookupInParent
  refine (hb.parent path).seq (fun e he => ⟨he.1, he.2.2⟩) fun r t hr => ?_
  rcases r with _ | ⟨dp, name⟩
  · rw [hr.2.1]
    rfl
  refine hr.seq (fun _ => False.elim) fun _ t₁ ⟨d, hat⟩ => ?_
  have hdir : (b.image.dinode d).type = T_DIR := hat.isDir
  rw [walkPath_of_resolvePath hat.path, Option.bind_some, Image.next, if_pos hdir]
  refine (hat.trail.lookupName hb.cache hat.locks hat.valid hat.type hat.inum name).seq
    (fun e he => ⟨he.1, he.2.2⟩) fun r t₂ ⟨hl₂, hr⟩ => ?_
  -- giving the directory back does not move what was found
  rcases r with _ | ⟨ip, off⟩
  · obtain ⟨ht₂, hsame, hmissing⟩ := hr
    rw [hmissing]
    refine (ht₂.putLast hb.cache hl₂).seq (fun e he => ⟨he.1, fun hs => he.2 ?_⟩) fun _ _ _ => rfl
    rw [hsame, hat.inum]
    exact hat.lasting hs.toLinked
  · obtain ⟨ht₂, hfound, -, hinum₂⟩ := hr
    have hkeeps : Lasting b (t₂.icache dp).inum := by
      rw [hinum₂]
      exact hb.kept.elim (fun h => h.lasting (size_ne_zero_of_lookup hfound)) hat.lasting
    refine (ht₂.unlockPut hb.cache hl₂ not_mem_nil).seq (fun e he => absurd hkeeps he.2)
      fun _ t₃ ⟨_, hrest⟩ => ?_
    rw [hfound]
    exact congrArg some ((hrest hkeeps).2 ip)

/-- An image whose root has the free entries of `Fs.longDir`. -/
def longImage : State :=
  .boot 20 (fun i => if i = ROOTINO then ⟨T_DIR, 0, 0, 1, 71200⟩ else ⟨0, 0, 0, 0, 0⟩) (fun _ => 0)
    (fun _ _ => ⟨0, []⟩) fun i bn => 64 * i + bn

theorem idle_longImage : Idle longImage := by
  refine idle_boot fun i hi => ?_
  rw [if_neg hi]
  exact fun _ => rfl

theorem longImage_lookup (d : ℕ) (name : Name) : longImage.image.lookup d name = none := by
  refine Option.map_eq_none_iff.mpr ?_
  exact find?_eq_none.mpr fun k _ => by simp [longImage, State.boot, State.image]

theorem longImage_root : longImage.image.Used ROOTINO := by
  show T_DIR ≠ 0
  decide

theorem sound_longImage : Sound longImage 0 where
  root := .inl (mem_cached.mpr ⟨0, by simp [longImage, State.boot], by simp [longImage, State.boot]⟩)
  entry d name j _ h := absurd h (by simp [longImage_lookup])
  room := by decide +kernel
  whole d hd := by
    have hd : d = ROOTINO := by
      by_contra hne
      have htype : (longImage.dinode d).type = T_DIR := hd
      simp [longImage, State.boot, hne] at htype
      exact absurd htype (by decide)
    rw [hd]
    rfl
  used_root := longImage_root
  used_cwd i hi := by
    have hone : longImage.cwdInum 0 = some ROOTINO := rfl
    rw [hone] at hi
    obtain rfl := Option.some.inj hi
    exact longImage_root
  used d name j _ h := absurd h (by simp [longImage_lookup])

theorem onDisk_longImage : longImage.image.OnDisk Fs.longDir ROOTINO where
  directory := Fs.longDir_directory
  size_eq := rfl
  entry_eq k _ := by
    rw [show (Fs.longDir.file ROOTINO).dirent k = _ from Fs.longDir_dirent k]
    rfl

end Sysfile
