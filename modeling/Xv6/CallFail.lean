/-
# Calls that fail

A call of `link` or `unlink` that returns -1 has no effect (`link_failed`): the inodes and directories on
disk are what they were, and so are their blocks and the references.  For this what has a name must not be
freed when a call that has looked at it puts it again (`Linked`), and a directory that is looked at must not
lack a block (`Mapped`).  A call of `open` that returns -1 has no effect either, unless
it has created the file (`open_failed_iff`).  `open` with `O_CREATE` of a file that exists always fails
(`open_existing_fails`).
-/
import Xv6.Namei

namespace Sysfile

open Prog Outcome Image

variable {p : ℕ} {s t : State}

/-- A call that is evaluated: it returns. -/
theorem exists_call {α : Type} {e : Event} {f : ℤ × State → α} {x : α}
    (h : (s.call e).toOption.map f = some x) : ∃ r t, s.call e = .ok (r, t) ∧ f (r, t) = x := by
  obtain ⟨⟨r, t⟩, hr, hx⟩ := Option.map_eq_some_iff.mp h
  exact ⟨r, t, toOption_eq_some.mp hr, hx⟩

/-! ## `link` and `unlink` -/

/-- The calls that make and remove links. -/
def Call.isLink : Call → Bool
  | .sysLink _ _ | .sysUnlink _ => true
  | _ => false

theorem call_undoes (hs : Ready s p) (hwords : Words s) (hlinked : Linked s) {c : Call}
    (hc : c.isLink = true) : c.prog.wp (perform p) anyway (fun _ => True) (Undone s) s := by
  have hkept : (pure (-1) : M ℤ).wp (perform p) anyway (fun _ => True) (Undone s) s :=
    fun _ => Trail.refl hs.cache
  cases c with
  | sysLink old new =>
    rcases old with _ | old
    · exact hkept
    · rcases new with _ | new
      · exact hkept
      · exact (sysLink_spec hs hwords old new).weaken (fun _ _ hq => hq.2 hlinked) fun _ _ => trivial
  | sysUnlink path =>
    rcases path with _ | path
    · exact hkept
    · exact (sysUnlink_spec hs path).weaken (fun _ _ hq => hq.2 hlinked) fun _ _ => trivial
  | _ => cases hc

/-- **A failed `link` or `unlink` has no effect** when what has a name is not freed by looking at it, and no
block of a directory is missing: every inode and its blocks, every entry of a directory and every reference
count is what it was. -/
theorem link_failed {e : Event} (hs : Ready s e.proc) (hwords : Words s) (hlinked : Linked s)
    (hmapped : Mapped s) (hc : e.call.isLink = true) (h : s.call e = .ok (-1, t)) :
    t.image = s.image ∧ t.blocks = s.blocks ∧ ∀ ip, (t.icache ip).ref = (s.icache ip).ref := by
  have hpost := (call_undoes (hs.enter e) hwords ⟨hlinked.root, hlinked.entry⟩ hc).post
    (meets_of_forall (fun _ _ => trivial) _ _)
  change Post (s.call e) _ _ at hpost
  rw [h] at hpost
  have ht : Trail (s.enter e) t 0 := hpost rfl
  refine ⟨ht.image, ht.blocks hmapped, fun ip => ?_⟩
  · have href : (t.icache ip).ref = (s.icache ip).ref + (0 : ℕ) := ht.ref ip
    simpa using href

/-- What is found stands in an entry. -/
theorem Image.exists_of_lookup {D : Image} {d j : ℕ} {name : Name} (h : D.lookup d name = some j) :
    ∃ k, (D.entry d k).inum = j ∧ j ≠ 0 := by
  obtain ⟨k, hfind, rfl⟩ := Option.map_eq_some_iff.mp h
  have hk := List.find?_some hfind
  rw [decide_eq_true_eq] at hk
  exact ⟨k, rfl, hk.1⟩

theorem linked_fileImage : Linked fileImage := by
  have hroot : Lasting fileImage ROOTINO :=
    .inl (mem_cached.mpr ⟨0, by simp [fileImage, State.boot], by simp [fileImage, State.boot]⟩)
  refine ⟨hroot, fun d name j hdir hfound => ?_⟩
  obtain ⟨k, rfl, hne⟩ := Image.exists_of_lookup hfound
  -- the root is the only directory, and its entries are those of the root and of the file
  have hentry : ∀ i k, (fileImage.entry i k).inum = 0 ∨ (fileImage.entry i k).inum = ROOTINO ∨
      (fileImage.entry i k).inum = 2 := by
    intro i k
    simp only [fileImage, State.boot]
    split_ifs <;> simp
  rcases hentry d k with hzero | hone | htwo
  · exact absurd hzero hne
  · rw [show (fileImage.image.entry d k).inum = ROOTINO from hone]
    exact hroot
  · rw [show (fileImage.image.entry d k).inum = 2 from htwo]
    exact .inr (.inl (by decide))

/-- The blocks of the images below are all there. -/
theorem mapped_of_blocks (hblocks : s.blocks = fun i bn => 64 * i + bn) (hzero : ¬ s.image.IsDir 0) :
    Mapped s := by
  intro d hdir bn _
  have hd : d ≠ 0 := fun h => hzero (h ▸ hdir)
  rw [hblocks]
  show 64 * d + bn ≠ 0
  omega

/-- `link("f", "")`. -/
def linkEmpty : Event := ⟨0, .sysLink (some [102]) (some []), [], id, fun _ _ => 200⟩

/-- `link` of a file to a name that cannot be created. -/
theorem link_failed_fileImage : ∃ t, fileImage.call linkEmpty = .ok (-1, t) ∧
    t.image = fileImage.image ∧ t.blocks = fileImage.blocks := by
  have hrun : (fileImage.call linkEmpty).toOption.map Prod.fst = some (-1) := by decide +kernel
  obtain ⟨_, t, hcall, rfl⟩ := exists_call hrun
  have hkept := link_failed (idle_fileImage.ready rfl) idle_fileImage.words linked_fileImage
    (mapped_of_blocks rfl (by decide)) rfl hcall
  exact ⟨t, hcall, hkept.1, hkept.2.1⟩

/-- An image with a name "f" in the root for a file without links. -/
def unlinkedImage : State :=
  .boot 20 (fun i => if i = ROOTINO then ⟨T_DIR, 0, 0, 1, 48⟩ else if i = 2 then ⟨T_FILE, 0, 0, 0, 0⟩
      else ⟨0, 0, 0, 0, 0⟩) (fun _ => 0)
    (fun i k => if i = ROOTINO ∧ k = 2 then ⟨2, [102]⟩ else ⟨0, []⟩) fun i bn => 64 * i + bn

/-- The image of the file, with a root whose block is missing. -/
def sparseImage : State := { fileImage with blocks := fun _ _ => 0 }

/-- **A failed `link` frees what it has looked at**, when that has a name but no links; and it allocates the
blocks that are missing in a directory. -/
theorem not_link_failed_unlinked :
    (Ready unlinkedImage 0 ∧ Words unlinkedImage ∧ Mapped unlinkedImage ∧
      ∃ t, unlinkedImage.call linkEmpty = .ok (-1, t) ∧ (unlinkedImage.dinode 2).type = T_FILE ∧
        (t.dinode 2).type = 0) ∧
    Ready sparseImage 0 ∧ Words sparseImage ∧ Linked sparseImage ∧
      ∃ t, sparseImage.call linkEmpty = .ok (-1, t) ∧ sparseImage.blocks ROOTINO 0 = 0 ∧
        t.blocks ROOTINO 0 = 200 := by
  have hidle : Idle unlinkedImage := by
    refine idle_boot fun i hi => ?_
    rw [if_neg hi]
    split <;> exact fun _ => rfl
  have hsparse : Ready sparseImage 0 := by
    have hready := idle_fileImage.ready (p := 0) rfl
    exact ⟨hready.cache.rebase _, hready.kept.imp id fun h => ⟨h.root, h.entry⟩, hready.unlocked, hready.cwd⟩
  have hallocated : (sparseImage.call linkEmpty).toOption.map (fun r => (r.1, r.2.blocks ROOTINO 0)) =
      some (-1, 200) := by
    decide +kernel
  obtain ⟨_, u, hcall', hr'⟩ := exists_call hallocated
  obtain ⟨rfl, hblock⟩ := Prod.mk.inj hr'
  refine ⟨⟨hidle.ready rfl, hidle.words, mapped_of_blocks rfl (by decide), ?_⟩, hsparse, idle_fileImage.words,
    ⟨linked_fileImage.root, linked_fileImage.entry⟩, u, hcall', rfl, hblock⟩
  have hrun : (unlinkedImage.call linkEmpty).toOption.map (fun r => (r.1, (r.2.dinode 2).type)) =
      some (-1, 0) := by
    decide +kernel
  obtain ⟨_, t, hcall, hr⟩ := exists_call hrun
  obtain ⟨rfl, htype⟩ := Prod.mk.inj hr
  exact ⟨t, hcall, rfl, htype⟩

/-! ## `open` -/

/-- **The namespace is as before**: no entry has been added, no inode allocated and no link count changed. -/
structure NamespaceKept (s t : State) : Prop where
  entry : ∀ d name, s.image.lookup d name = none → t.image.lookup d name = none
  inode : ∀ i, t.image.Used i → s.image.Used i
  nlink : ∀ i, (t.dinode i).nlink = (s.dinode i).nlink

/-- The call creates a file: it is one with `O_CREATE`, of a name that is missing in its directory. -/
def State.Creates (s : State) (p : ℕ) : Call → Prop
  | .sysOpen (some path) (some omode) => omode &&& O_CREATE ≠ 0 ∧ s.Missing p path
  | _ => False

theorem NamespaceKept.of_image (h : t.image = s.image) : NamespaceKept s t := by
  constructor
  · rw [h]
    exact fun _ _ hnone => hnone
  · rw [h]
    exact fun _ hused => hused
  · intro i
    rw [← State.image_dinode, h]
    rfl

/-- **`open` that fails leaves the namespace as it was exactly if it does not create the file.** -/
theorem open_failed_iff {e : Event} {path : Option Path} {omode : Option ℕ}
    (hcall : e.call = .sysOpen path omode) (hs : Ready s e.proc) (hrest : Rest s)
    (hlive : (s.proc e.proc).live = true) (hlinked : Linked s) (hformat : Format s)
    (h : s.call e = .ok (-1, t)) : NamespaceKept s t ↔ ¬ s.Creates e.proc e.call := by
  -- without its arguments it does nothing
  have hnothing : e.call.prog = pure (-1) → NamespaceKept s t := by
    intro hprog
    rw [State.call, hprog] at h
    cases h
    exact .of_image rfl
  rcases path with _ | path
  · refine iff_of_true (hnothing (by rw [hcall]; rfl)) ?_
    rw [hcall]
    exact id
  rcases omode with _ | omode
  · refine iff_of_true (hnothing (by rw [hcall]; rfl)) ?_
    rw [hcall]
    exact id
  have hpost := (sysOpen_spec (hs.enter e) (hrest.enter e) hlive path omode).post
    (meets_of_forall (fun _ _ => trivial) _ _)
  have hprog : e.call.prog = sysOpen (some path) (some omode) := by rw [hcall]; rfl
  rw [← hprog] at hpost
  change Post (s.call e) _ _ at hpost
  rw [h] at hpost
  have hleft := hpost.1 rfl ⟨hlinked.root, hlinked.entry⟩
  rw [hcall]
  constructor
  · rintro hkept hcreates
    obtain ⟨d, name, hnone, hsome⟩ := hleft.added hcreates ⟨hformat.inodes, hformat.sizes⟩
    exact hsome (hkept.entry d name hnone)
  · exact fun hn => .of_image (hleft.undone hn)

/-- `open(path, omode)` by the first process. -/
def openCall (path : Path) (omode : ℕ) : Event := ⟨0, .sysOpen (some path) (some omode), [], id, fun _ _ => 200⟩

theorem format_fileImage : Format fileImage := by
  constructor
  · decide
  · intro d
    simp only [fileImage, State.boot]
    split_ifs <;> decide

/-- `open("g", O_RDONLY)` fails and leaves the namespace as it was. -/
theorem open_failed_iff_fileImage : ∃ t, fileImage.call (openCall [103] 0) = .ok (-1, t) ∧
    NamespaceKept fileImage t := by
  have hrun : (fileImage.call (openCall [103] 0)).toOption.map Prod.fst = some (-1) := by decide +kernel
  obtain ⟨_, t, hcall, rfl⟩ := exists_call hrun
  refine ⟨t, hcall, (open_failed_iff rfl (idle_fileImage.ready rfl) idle_fileImage.rest rfl linked_fileImage
    format_fileImage hcall).mpr fun h => h.1 rfl⟩

/-- **`open` creates the file and fails**: after sixteen calls of `open("f", O_RDONLY)` there is no
descriptor left, and `open("g", O_CREATE)` returns -1 but leaves the name "g" in the root. -/
theorem not_open_failed_full : ∃ s t, Runs.run State.step fileImage (List.replicate NOFILE (openCall [102] 0)) =
    some s ∧ s.call (openCall [103] O_CREATE) = .ok (-1, t) ∧
    s.image.lookup ROOTINO [103] = none ∧ t.image.lookup ROOTINO [103] = some 3 ∧
    (s.dinode 3).type = 0 ∧ (t.dinode 3).type = T_EXTENT := by
  have hrun : (Runs.run State.step fileImage (List.replicate NOFILE (openCall [102] 0))).map (fun s =>
      (s.image.lookup ROOTINO [103], (s.dinode 3).type, (s.call (openCall [103] O_CREATE)).toOption.map
        fun r => (r.1, r.2.image.lookup ROOTINO [103], (r.2.dinode 3).type))) =
      some (none, 0, some (-1, some 3, T_EXTENT)) := by
    decide +kernel
  obtain ⟨s, hs, hrest⟩ := Option.map_eq_some_iff.mp hrun
  simp only [Prod.mk.injEq] at hrest
  obtain ⟨hbefore, hfree, hopen⟩ := hrest
  obtain ⟨_, t, hcall, hr⟩ := exists_call hopen
  simp only [Prod.mk.injEq] at hr
  obtain ⟨rfl, hafter, hused⟩ := hr
  exact ⟨s, t, hs, hcall, hbefore, hafter, hfree, hused⟩

/-- **`open` with `O_CREATE` of a file that exists always fails**: `create` is called for the type
`T_EXTENT` and reuses a file for the type `T_FILE` only. -/
theorem open_existing_fails {e : Event} {path : Path} {omode i : ℕ} {r : ℤ}
    (hcall : e.call = .sysOpen (some path) (some omode)) (hs : Ready s e.proc) (hrest : Rest s)
    (hlive : (s.proc e.proc).live = true) (hcreate : omode &&& O_CREATE ≠ 0)
    (hfile : s.image.follow (s.cwdInum e.proc) path = some i) (hne : components path ≠ [])
    (h : s.call e = .ok (r, t)) : r = -1 := by
  have hpost := (sysOpen_spec (hs.enter e) (hrest.enter e) hlive path omode).post
    (meets_of_forall (fun _ _ => trivial) _ _)
  have hprog : e.call.prog = sysOpen (some path) (some omode) := by rw [hcall]; rfl
  rw [← hprog] at hpost
  change Post (s.call e) _ _ at hpost
  rw [h] at hpost
  by_contra hr
  obtain ⟨d, name, hparent, hmissing⟩ := hpost.2 hr hcreate
  rw [follow_eq_parent hne] at hfile
  change s.image.walkPath (s.cwdInum e.proc) true path = some (d, name) at hparent
  rw [hparent, Option.bind_some, Image.next] at hfile
  split at hfile
  · rw [show s.image.lookup d name = none from hmissing] at hfile
    cases hfile
  · cases hfile

theorem open_existing_fails_fileImage : ∃ r t,
    fileImage.call (openCall [102] O_CREATE) = .ok (r, t) ∧ r = -1 := by
  have hreturns : (fileImage.call (openCall [102] O_CREATE)).toOption.map (fun _ => ()) = some () := by
    decide +kernel
  obtain ⟨r, t, hcall, -⟩ := exists_call hreturns
  exact ⟨r, t, hcall, open_existing_fails (i := 2) rfl (idle_fileImage.ready rfl) idle_fileImage.rest rfl
    (by decide) (by decide +kernel) (by decide) hcall⟩

/-- **`open("g", O_CREATE)` makes the file, and the next such call fails**, as does `open("f", O_CREATE)` of
the file in the image. -/
theorem not_open_existing : ∃ s t u, fileImage.call (openCall [103] O_CREATE) = .ok (0, s) ∧
    s.call (openCall [103] O_CREATE) = .ok (-1, t) ∧
    fileImage.call (openCall [102] O_CREATE) = .ok (-1, u) := by
  have hmade : (fileImage.call (openCall [103] O_CREATE)).toOption.map (fun r =>
      (r.1, (r.2.call (openCall [103] O_CREATE)).toOption.map Prod.fst)) = some (0, some (-1)) := by
    decide +kernel
  have hfile : (fileImage.call (openCall [102] O_CREATE)).toOption.map Prod.fst = some (-1) := by
    decide +kernel
  obtain ⟨_, s, hs, hr⟩ := exists_call hmade
  obtain ⟨rfl, hagain⟩ := Prod.mk.inj hr
  obtain ⟨_, t, ht, rfl⟩ := exists_call hagain
  obtain ⟨_, u, hu, rfl⟩ := exists_call hfile
  exact ⟨s, t, u, hs, ht, hu⟩

end Sysfile
