/-
# The calls on names

What `link`, `unlink`, `create`, `open` and `chdir` do when they are alone in the file system, found out in
one pass over each of them:

* for which lock they wait, if for any;
* that a call of `link`, `unlink` or `open` that fails has undone what it did (`Undone`), but for an `open`
  that has created the file (`Added`).

A directory is locked while a name is looked up in it.  `link` counts the new link before it knows whether
the name can be created (`Relinked`).
-/
import Xv6.PathWalk

namespace Sysfile

open Function Prog Outcome Image List

variable {p : ℕ} {b s t : State} {h k : InodePtr → ℕ} {ip dp : InodePtr}

/-- **Nobody is in the file system**, and the process has a current directory: no lock is held, the cache
agrees with the disk, and what nobody refers to and has no links is empty or has no name. -/
structure Ready (s : State) (p : ℕ) : Prop where
  cache : Cache s
  kept : Bare s ∨ Linked s
  unlocked : Locks [] s
  cwd : ∃ cwd, (s.proc p).cwd = some cwd ∧ 0 < (s.icache cwd).ref

theorem Ready.enter (hs : Ready s p) (e : Event) : Ready (s.enter e) p :=
  ⟨⟨⟨hs.cache.nonneg, hs.cache.dev, hs.cache.unique⟩, hs.cache.coherent⟩,
    hs.kept.imp id fun h => ⟨h.root, h.entry⟩, hs.unlocked, hs.cwd⟩

/-! ## Names in a locked directory -/

/-- **A directory has been found and locked**: it has number `d`, and `name` is to be looked up in it. -/
structure AtParent (b t : State) (p : ℕ) (path : Path) (dp : InodePtr) (name : Name) (d : ℕ) : Prop where
  locks : Locks [dp] t
  trail : Trail b t (one dp)
  valid : (t.icache dp).valid = true
  type : (t.icache dp).type = T_DIR
  inum : (t.icache dp).inum = d
  isDir : b.image.IsDir d
  path : b.image.resolvePath b.cached (b.cwdInum p) true path = some (d, name)
  lasting : Linked b → Lasting b d

/-- The directory above the last name of a path is found and locked. -/
theorem Ready.parent (hb : Ready b p) (path : Path) : (nameiparent path).wp (perform p) anyway
    (fun e => e ≠ .blocked ∧ b.image.resolvePath b.cached (b.cwdInum p) true path = none ∧ ¬ Sound b p)
    (fun r t => match r with
      | none => Locks [] t ∧ b.image.walkPath (b.cwdInum p) true path = none ∧ (Linked b → Trail b t 0)
      | some (dp, name) => (call (.ilock dp)).wp (perform p) anyway (fun _ => False)
          (fun _ t => ∃ d, AtParent b t p path dp name d) t) b := by
  obtain ⟨cwd, hcwd, hpos⟩ := hb.cwd
  refine (namex_resolves hb.cache hb.unlocked hcwd hpos hb.kept path true).mono fun r t ⟨hlt, hr⟩ => ?_
  rcases r with _ | ⟨dp, name⟩
  · exact ⟨hlt, hr⟩
  · obtain ⟨ht, hpath, hlast⟩ := hr
    have hdir := isDir_of_resolvePath hpath
    refine (ht.lock hb.cache (by simp [one]) hlt).weaken (fun _ t₁ ⟨hl₁, ht₁, hvalid, hinum⟩ => ?_)
      fun e he => he.2 hdir.used
    have hview := ht₁.view (ht₁.ref_pos hb.cache (by simp [one])) hvalid
    rw [hinum] at hview
    exact ⟨_, hl₁, ht₁, hvalid, (congrArg Dinode.type hview).symm.trans hdir, hinum dp, hdir, hpath, hlast⟩

/-- The directory is given back. -/
theorem Trail.putLast (ht : Trail b t (one ip)) (hb : Cache b) (hl : Locks [ip] t) :
    (iunlockput ip).wp (perform p) anyway (fun e => e ≠ .blocked ∧ ¬ Lasting b (t.icache ip).inum)
      (fun _ t' => Locks [] t' ∧ (Lasting b (t.icache ip).inum → Trail b t' 0)) t := by
  rw [← zero_add (one ip)] at ht
  exact (ht.unlockPut hb hl not_mem_nil).mono fun _ _ hr => ⟨hr.1, fun hlast => (hr.2 hlast).1⟩

/-- **`dirlink` waits exactly if the name stands for the directory**, and gives back what it has found. -/
theorem Trail.dirlink {d : ℕ} (ht : Trail b t (one dp)) (hb : Cache b) (hl : Locks [dp] t)
    (hvalid : (t.icache dp).valid = true) (hdir : (t.icache dp).type = T_DIR)
    (hd : (t.icache dp).inum = d) (name : Name) (i : ℕ) : (dirlink dp name i).wp (perform p) anyway
      (fun e => e = .blocked ↔ b.image.lookup d name = some d)
      (fun linked t' => Locks [dp] t' ∧ b.image.lookup d name ≠ some d ∧
        (linked = false → Linked b → Trail b t' (one dp) ∧ (t'.icache dp).inum = d)) t := by
  have hisdir : b.image.IsDir d := by
    rw [← hd, IsDir, ht.view (ht.ref_pos hb (by simp [one])) hvalid]
    exact hdir
  unfold Sysfile.dirlink
  refine (ht.lookupName hb hl hvalid hdir hd name).seq (fun e he =>
      iff_of_false he.1 fun hself => he.2.1 _ hself (.inl (Finset.mem_insert_self _ _)))
      fun r t' ht' => ?_
  obtain ⟨hl', hr⟩ := ht'
  rcases r with _ | ⟨ip, off⟩
  · have hne : b.image.lookup d name ≠ some d := by
      rw [hr.2.2]
      rintro ⟨⟩
    have hE : ∀ e, NotBlocked e → (e = .blocked ↔ b.image.lookup d name = some d) :=
      fun _ he => iff_of_false he hne
    exact ((Unblocked.calm (p := p) (o := .emptyDirent dp) rfl t' hl').weaken (fun _ _ hq => hq) hE).bind
      fun off u hlu => ((Unblocked.calm (p := p) (o := .writeDirent dp off ⟨i, name⟩) rfl u hlu).weaken
        (fun _ _ hq => hq) hE).bind fun written v hlv =>
          wp_check (hE _ (notBlocked_panic _)) fun _ => ⟨hlv, hne, by simp⟩
  · obtain ⟨ht', hfound, -, hinum⟩ := hr
    have hself : b.image.lookup d name = some d ↔ (t'.icache ip).inum = d := by
      rw [hfound, Option.some_inj]
    by_cases heq : ip = dp
    · subst heq
      refine fun _ => post_map.mpr ?_
      simp only [State.iput, if_pos (hl'.of_mem mem_cons_self)]
      exact iff_of_true rfl (hself.mpr hinum)
    · have hne : b.image.lookup d name ≠ some d := fun h => heq (ht'.cache.unique ip dp
        (ht'.ref_pos hb (by simp [one])) (ht'.ref_pos hb (by simp [one]))
          ((hself.mp h).trans hinum.symm))
      rw [add_comm] at ht'
      refine (ht'.put hb hl' (by simpa using heq)).seq (fun e he => iff_of_false he.1 hne)
        fun _ t'' hrest => ⟨hrest.1, hne, fun _ hlinked => ?_⟩
      obtain ⟨ht'', hinum''⟩ := hrest.2 (hlinked.entry _ _ _ hisdir hfound)
      exact ⟨ht'', (hinum'' dp).trans hinum⟩

/-! ## New inodes -/

/-- No entry of the directory has the name. -/
def Lacks (s : State) (dp : InodePtr) (name : Name) : Prop :=
  ∀ k, k < (s.icache dp).size / DIRENT → (s.entry (s.icache dp).inum k).inum ≠ 0 →
    (s.entry (s.icache dp).inum k).name ≠ name

/-- The directory has not changed. -/
structure Untouched (s s' : State) (dp : InodePtr) : Prop where
  inum : (s'.icache dp).inum = (s.icache dp).inum
  size : (s'.icache dp).size = (s.icache dp).size
  entry : s'.entry (s.icache dp).inum = s.entry (s.icache dp).inum

namespace Untouched

variable {s' s'' : State}

theorem trans (h : Untouched s s' dp) (h' : Untouched s' s'' dp) : Untouched s s'' dp :=
  ⟨h'.inum.trans h.inum, h'.size.trans h.size, by rw [← h.entry, ← h.inum]; exact h'.entry⟩

theorem lacks (h : Untouched s s' dp) {name : Name} (hl : Lacks s dp name) : Lacks s' dp name := by
  unfold Lacks
  rw [h.inum, h.size, h.entry]
  exact hl

theorem of_icache (hcache : s'.icache dp = s.icache dp) (hentry : s'.entry = s.entry) :
    Untouched s s' dp := ⟨by rw [hcache], by rw [hcache], by rw [hentry]⟩

/-- An entry of the cache changes, but for this directory not in what concerns its entries. -/
theorem setCached {c : Cached} (s : State) (hinum : ip = dp → c.inum = (s.icache dp).inum)
    (hsize : ip = dp → c.size = (s.icache dp).size) : Untouched s (s.setCached ip c) dp := by
  by_cases he : dp = ip
  · subst he
    exact ⟨by simp [State.setCached, hinum], by simp [State.setCached, hsize], rfl⟩
  · exact of_icache (update_of_ne he ..) rfl

theorem iupdate (s : State) (ip : InodePtr) : Untouched s (s.iupdate ip) dp :=
  of_icache (congrFun (State.iupdate_icache s ip) dp) (State.iupdate_entry s ip)

/-- Another directory is written to. -/
theorem writeDirent (hne : dp ≠ ip) (hinum : (s.icache dp).inum ≠ (s.icache ip).inum) (off : ℕ)
    (de : Dirent) : Untouched s (s.writeDirent ip off de).2 dp := by
  simp only [State.writeDirent]
  split
  · exact ⟨rfl, rfl, rfl⟩
  · have hset : Untouched s ((s.fill ip off DIRENT).setEntries (s.icache ip).inum (update
        (s.entry (s.icache ip).inum) (off / DIRENT) ⟨de.inum % 2 ^ 16, de.name⟩)) dp :=
      ⟨rfl, rfl, update_of_ne hinum ..⟩
    refine hset.trans ?_
    unfold State.grow
    split
    · exact (setCached _ (fun heq => absurd heq.symm hne) fun heq => absurd heq.symm hne).trans
        (iupdate _ ip)
    · exact ⟨rfl, rfl, rfl⟩

end Untouched

/-- Nothing of the directory has changed, in memory or on disk. -/
structure Still (s s' : State) (dp : InodePtr) : Prop where
  icache : s'.icache dp = s.icache dp
  entry : s'.entry (s.icache dp).inum = s.entry (s.icache dp).inum
  size : (s'.dinode (s.icache dp).inum).size = (s.dinode (s.icache dp).inum).size

namespace Still

variable {s' s'' : State}

theorem untouched (h : Still s s' dp) : Untouched s s' dp := ⟨by rw [h.icache], by rw [h.icache], h.entry⟩

theorem trans (h : Still s s' dp) (h' : Still s' s'' dp) : Still s s'' dp := by
  obtain ⟨hicache, hentry, hsize⟩ := h'
  rw [h.icache] at hicache hentry hsize
  exact ⟨hicache, hentry.trans h.entry, hsize.trans h.size⟩

theorem setCached {c : Cached} (s : State) (hne : ip ≠ dp) : Still s (s.setCached ip c) dp :=
  ⟨update_of_ne hne.symm .., rfl, rfl⟩

/-- Another inode is written back. -/
theorem iupdate (hinum : (s.icache ip).inum ≠ (s.icache dp).inum) : Still s (s.iupdate ip) dp :=
  ⟨by rw [State.iupdate_icache], by rw [State.iupdate_entry],
    by rw [State.iupdate_size, if_neg hinum.symm]⟩

end Still

variable {name : Name} {L : List InodePtr}

/-- Only blocks have been allocated. -/
structure Alike (s s' : State) : Prop where
  icache : s'.icache = s.icache
  dinode : s'.dinode = s.dinode
  entry : s'.entry = s.entry

theorem Alike.untouched {s' : State} (h : Alike s s') : Untouched s s' dp :=
  .of_icache (by rw [h.icache]) h.entry

/-- `dirlink` of a name that is missing does not wait: it writes an entry. -/
theorem dirlink_lacks (hl : Locks L s) (hlacks : Lacks s dp name) (i : ℕ) :
    (dirlink dp name i).wp (perform p) anyway NotBlocked
      (fun _ t => Locks L t ∧ ∃ u off, Alike s u ∧ u.emptyOffset dp = .ok off ∧
        (u.writeDirent dp off ⟨i, name⟩).1 = true ∧ t = (u.writeDirent dp off ⟨i, name⟩).2) s := by
  have hnone : (range ((s.icache dp).size / DIRENT)).find? (fun k => decide
      ((s.entry (s.icache dp).inum k).inum ≠ 0 ∧ (s.entry (s.icache dp).inum k).name = name)) = none := by
    refine find?_eq_none.mpr fun k hk => ?_
    rw [decide_eq_true_eq]
    exact fun hname => hlacks k (mem_range.mp hk) hname.1 hname.2
  intro _
  simp only [perform, State.dirlookup, post_ite]
  refine ⟨fun _ => notBlocked_panic _, fun _ => ?_⟩
  simp only [State.findDirent, hnone]
  by_cases hsize : (s.icache dp).size % DIRENT = 0
  · rw [if_pos hsize]
    intro _
    have hcalm := calm_perform (p := p) s (o := .emptyDirent dp) rfl
    have hoff : (s.scanned dp 0 none).emptyOffset dp = s.emptyOffset dp := rfl
    simp only [perform, State.emptyDirent, hoff] at hcalm ⊢
    cases hempty : s.emptyOffset dp with
    | error e =>
      rw [hempty] at hcalm
      exact hcalm
    | ok off =>
      set u := (s.scanned dp 0 none).fill dp 0 (min (off + DIRENT) (s.icache dp).size) with hu
      have hlu : Locks L u := hl
      refine fun _ => wp_check (notBlocked_panic _) fun hwritten =>
        ⟨hlu.congr ?_, u, off, ⟨rfl, rfl, rfl⟩, hempty, Bool.eq_true_of_not_eq_false hwritten, rfl⟩
      exact calm_perform (p := p) u (o := .writeDirent dp off ⟨i, name⟩) rfl
  · rw [if_neg hsize]
    exact notBlocked_panic _

/-- **A new inode is not one that is in use.** -/
theorem ialloc_fresh (hs : Cache s) (hpos : 0 < (s.icache dp).ref) (hvalid : (s.icache dp).valid = true)
    (type : Int16) : Post (s.ialloc ROOTDEV type) (fun r => r.1 ≠ dp ∧ Still s r.2 dp ∧
      (r.2.icache r.1).inum ≠ (s.icache dp).inum ∧ (r.2.icache r.1).valid = false ∧
      (r.2.dinode (r.2.icache r.1).inum).size = 0 ∧
      0 < (r.2.icache r.1).inum ∧ (r.2.icache r.1).inum < s.ninodes) (fun _ => True) := by
  simp only [State.ialloc]
  split
  next => trivial
  next i hfind =>
    have hfree : (s.dinode i).type = 0 := by simpa using find?_some hfind
    have hrange : 0 < i ∧ i < s.ninodes := by
      have hmem := mem_range'_1.mp (mem_of_find?_eq_some hfind)
      omega
    have hne : ∀ e, 0 < (s.icache e).ref → (s.icache e).valid = true → (s.icache e).inum ≠ i := by
      rintro e he hv rfl
      obtain ⟨hsame, htype⟩ := hs.coherent e he hv
      rw [hsame] at hfree
      exact htype hfree
    set u := ((s.setDinode i ⟨type, 0, 0, 0, 0⟩).setEntries i fun _ => ⟨0, []⟩).setBlocks i fun _ => 0
      with hu
    have hentries : Entries u := ⟨hs.nonneg, hs.dev, hs.unique⟩
    have hdp := hne dp hpos hvalid
    have hstill : Still s u dp := by
      refine ⟨rfl, update_of_ne hdp .., ?_⟩
      simp [hu, State.setDinode, State.setEntries, State.setBlocks, hdp]
    have hdinode : (u.dinode i).size = 0 := by simp [hu, State.setDinode, State.setEntries, State.setBlocks]
    -- whichever entry of the cache it gets
    have hset : ∀ (ip : InodePtr) (c : Cached), ip ≠ dp → c.inum = i → c.valid = false →
        ip ≠ dp ∧ Still s (u.setCached ip c) dp ∧ ((u.setCached ip c).icache ip).inum ≠ (s.icache dp).inum ∧
        ((u.setCached ip c).icache ip).valid = false ∧
        ((u.setCached ip c).dinode ((u.setCached ip c).icache ip).inum).size = 0 ∧
        0 < ((u.setCached ip c).icache ip).inum ∧ ((u.setCached ip c).icache ip).inum < s.ninodes := by
      intro ip c hip hc hv
      rw [show (u.setCached ip c).icache ip = c from update_self .., hc]
      exact ⟨hip, hstill.trans (.setCached u hip), hdp.symm, hv, hdinode, hrange⟩
    refine (hentries.igetOrPanic i).impAny fun r hr => ?_
    obtain ⟨ip, v⟩ := r
    obtain ⟨href, hinum, hv⟩ | ⟨hzero, -, hv⟩ := hr
    · dsimp only at href hinum hv ⊢
      subst hv
      refine hset ip _ ?_ hinum ?_
      · rintro rfl
        exact hdp hinum
      · -- a copy that is valid would be of an inode that is not free
        exact Bool.eq_false_iff.mpr fun hv => hne ip href hv hinum
    · dsimp only at hzero hv ⊢
      subst hv
      refine hset ip _ ?_ rfl rfl
      rintro rfl
      exact absurd hpos (by rw [show (s.icache ip).ref = 0 from hzero]; exact lt_irrefl 0)

/-- After its first entry a directory has no other name. -/
theorem lacks_of_first {name name' : Name} {i : ℕ} (hsize : (s.icache ip).size = 0)
    (hname : name ≠ name') : Lacks (s.writeDirent ip 0 ⟨i, name⟩).2 ip name' := by
  have hu32 : u32 (0 + DIRENT) = 16 := by decide
  simp only [State.writeDirent, hu32]
  rw [if_neg (by decide)]
  unfold State.grow
  rw [if_pos (by simp [State.setEntries, hsize])]
  intro k hk
  have hcache : ∀ u : State, ∀ c, ((u.setCached ip c).iupdate ip).icache ip = c := fun u c => by
    rw [State.iupdate_icache]
    exact update_self ..
  rw [hcache] at hk ⊢
  obtain rfl : k = 0 := by
    simp only [DIRENT] at hk
    omega
  simp only [State.iupdate_entry, State.setCached, State.setEntries, State.fill_icache, update_self]
  rw [show 0 / DIRENT = 0 from rfl, update_self]
  exact fun _ => hname

/-- A directory with nothing in it gets its first entry at its beginning. -/
theorem emptyOffset_of_empty {off : ℕ} (hsize : (s.icache ip).size = 0)
    (h : s.emptyOffset ip = .ok off) : off = 0 := by
  simp only [State.emptyOffset, State.findDirent, hsize] at h
  exact (Except.ok.inj h).symm

/-- Writing an entry changes nothing in the cache but a size. -/
theorem icache_writeDirent (s : State) (ip : InodePtr) (off : ℕ) (de : Dirent) :
    ∃ size, (s.writeDirent ip off de).2.icache =
      update s.icache ip { s.icache ip with size := size } := by
  have hsame : s.icache = update s.icache ip { s.icache ip with size := (s.icache ip).size } :=
    (update_eq_self ip s.icache).symm
  simp only [State.writeDirent]
  split
  · exact ⟨_, hsame⟩
  · unfold State.grow
    split
    · exact ⟨_, by rw [State.iupdate_icache]; rfl⟩
    · exact ⟨_, hsame⟩

theorem inum_writeDirent (s : State) (ip e : InodePtr) (off : ℕ) (de : Dirent) :
    ((s.writeDirent ip off de).2.icache e).inum = (s.icache e).inum := by
  obtain ⟨size, hicache⟩ := icache_writeDirent s ip off de
  rw [hicache]
  by_cases he : e = ip
  · subst he
    simp
  · simp [he]

theorem createDots_unblocked (hl : Locks [ip, dp] s) (hne : ip ≠ dp)
    (hinum : (s.icache ip).inum ≠ (s.icache dp).inum) (hsize : (s.icache ip).size = 0)
    (hlacks : Lacks s dp name) : (createDots ip dp).wp (perform p) anyway NotBlocked
      (fun _ t => Locks [ip, dp] t ∧ Lacks t dp name) s := by
  unfold createDots
  refine wp_call_bind rfl fun _ _ => ?_
  set t := (s.setCached dp { s.icache dp with nlink := (s.icache dp).nlink + 1 }).iupdate dp with ht
  have hlt : Locks [ip, dp] t := hl.congr ((SameLocks.setCached s (by rfl)).trans (.iupdate _ dp))
  have hip : Untouched s t ip :=
    (Untouched.setCached s (fun h => absurd h.symm hne) fun h => absurd h.symm hne).trans (.iupdate _ dp)
  have hdp : Untouched s t dp :=
    (Untouched.setCached s (c := { s.icache dp with nlink := (s.icache dp).nlink + 1 }) (fun _ => rfl)
      fun _ => rfl).trans (.iupdate _ dp)
  have hsizet : (t.icache ip).size = 0 := hip.size.trans hsize
  have hinumt : (t.icache dp).inum ≠ (t.icache ip).inum := by
    rw [hip.inum, hdp.inum]
    exact hinum.symm
  refine wp_call_bind rfl ?_
  have hdot : Lacks t ip dot := fun k hk => by
    rw [hsizet] at hk
    exact absurd hk (Nat.not_lt_zero k)
  refine (dirlink_lacks hlt hdot _).bind fun _ u ⟨hlu, t', off, ht', hoff, _, hu⟩ => ?_
  rw [← ht'.icache] at hsizet hinumt
  obtain rfl := emptyOffset_of_empty hsizet hoff
  have hdpu : Untouched t u dp := by
    rw [hu]
    exact ht'.untouched.trans (.writeDirent hne.symm hinumt _ _)
  have hdotdot : Lacks u ip dotdot := by
    rw [hu]
    exact lacks_of_first hsizet (by decide)
  have hinumu : (u.icache dp).inum ≠ (u.icache ip).inum := by
    rw [hu, inum_writeDirent, inum_writeDirent]
    exact hinumt
  refine wp_check (notBlocked_panic _) fun _ => ?_
  refine (dirlink_lacks hlu hdotdot _).bind fun _ v ⟨hlv, u', off', hu', _, _, hv⟩ => ?_
  have hdpv : Untouched u v dp := by
    rw [hv]
    refine hu'.untouched.trans (.writeDirent hne.symm ?_ _ _)
    rw [hu'.icache]
    exact hinumu
  unfold doIf
  split
  · exact fun _ => notBlocked_panic _
  · exact ⟨hlv, hdpv.lacks (hdpu.lacks (hdp.lacks hlacks))⟩

/-- An entry of the directory has the name. -/
def Has (s : State) (d : ℕ) (name : Name) : Prop :=
  ∃ k, k < (s.dinode d).size / DIRENT ∧ (s.entry d k).inum ≠ 0 ∧ (s.entry d k).name = name

theorem Has.lookup_ne_none {d : ℕ} (h : Has s d name) : s.image.lookup d name ≠ none := by
  obtain ⟨k, hk, hinum, hname⟩ := h
  intro hnone
  have hfind := find?_eq_none.mp (Option.map_eq_none_iff.mp hnone) k (mem_range.mpr hk)
  exact hfind (decide_eq_true ⟨hinum, hname⟩)

/-- **The limits of the format**: an entry has 16 bits for the number of an inode, and directories are not
longer than files can be. -/
structure Format (s : State) : Prop where
  inodes : s.ninodes ≤ 2 ^ 16
  sizes : ∀ d, (s.dinode d).size ≤ MAXFILE * BSIZE

/-- The entry that has been written is there. -/
theorem has_writeDirent {off : ℕ} {de : Dirent} (hoff : s.emptyOffset dp = .ok off)
    (hwritten : (s.writeDirent dp off de).1 = true) (hinum : de.inum % 2 ^ 16 ≠ 0)
    (hsize : (s.dinode (s.icache dp).inum).size = (s.icache dp).size)
    (hmax : (s.icache dp).size ≤ MAXFILE * BSIZE) :
    Has (s.writeDirent dp off de).2 (s.icache dp).inum de.name := by
  set c := s.icache dp with hc
  -- the offset is that of an entry, or the end
  have hplace : off % DIRENT = 0 ∧ (off + DIRENT ≤ c.size ∨ off = c.size) := by
    simp only [State.emptyOffset, State.findDirent] at hoff
    cases hfind : (range (c.size / DIRENT)).find? fun k => decide ((s.entry c.inum k).inum = 0) with
    | some k =>
      rw [← hc, hfind] at hoff
      obtain rfl : k * DIRENT = off := Except.ok.inj hoff
      have hk := mem_range.mp (mem_of_find?_eq_some hfind)
      unfold DIRENT at *
      omega
    | none =>
      rw [← hc, hfind] at hoff
      by_cases hmod : c.size % DIRENT = 0
      · rw [if_pos hmod] at hoff
        obtain rfl : c.size = off := Except.ok.inj hoff
        exact ⟨hmod, .inr rfl⟩
      · rw [if_neg hmod] at hoff
        cases hoff
  have hu32 : u32 (off + DIRENT) = off + DIRENT := by
    unfold u32 DIRENT MAXFILE BSIZE at *
    omega
  simp only [State.writeDirent] at hwritten ⊢
  rw [← hc] at hwritten ⊢
  rw [hu32] at hwritten ⊢
  by_cases hlimit : MAXFILE * BSIZE < off + DIRENT
  · rw [if_pos hlimit] at hwritten
    cases hwritten
  rw [if_neg hlimit]
  dsimp only
  set u := (s.fill dp off DIRENT).setEntries c.inum (update (s.entry c.inum) (off / DIRENT)
    ⟨de.inum % 2 ^ 16, de.name⟩) with hu
  have hentry : u.entry c.inum (off / DIRENT) = ⟨de.inum % 2 ^ 16, de.name⟩ := by
    simp [hu, State.setEntries]
  refine ⟨off / DIRENT, ?_⟩
  unfold State.grow
  rw [show u.icache dp = c from rfl]
  split
  next hlt =>
    rw [State.iupdate_size, State.iupdate_entry]
    rw [show (u.setCached dp { c with size := off + DIRENT }).entry = u.entry from rfl, hentry]
    rw [show (u.setCached dp { c with size := off + DIRENT }).icache dp =
      { c with size := off + DIRENT } from update_self .., if_pos rfl]
    refine ⟨?_, hinum, rfl⟩
    dsimp only
    unfold DIRENT at *
    omega
  next hge =>
    rw [hentry, show u.dinode = s.dinode from rfl, hsize]
    refine ⟨?_, hinum, rfl⟩
    unfold DIRENT at *
    omega

/-- An inode that is not freed is put. -/
theorem iunlockput_keeps (hl : Locks (ip :: L) s) (hip : ip ∉ L) (hkeep : ¬ s.Frees ip) :
    (iunlockput ip).wp (perform p) anyway NotBlocked
      (fun _ t => Locks L t ∧ t.dinode = s.dinode ∧ t.entry = s.entry ∧
        ∀ e, e ≠ ip → t.icache e = s.icache e) s := by
  refine Prog.wp_bind.mpr fun _ => post_map.mpr ?_
  have hunlock := locks_iunlock hl hip
  simp only [State.iunlock, post_ite] at hunlock ⊢
  refine ⟨fun _ => notBlocked_panic _, fun hn => ?_⟩
  have hlt := hunlock.2 hn
  set t := s.setCached ip { s.icache ip with locked := false } with ht
  have hself : t.icache ip = { s.icache ip with locked := false } := update_self ..
  have hkeep' : ¬ ((t.icache ip).valid = true ∧ (t.icache ip).nlink = 0 ∧ (t.icache ip).ref = 1) := by
    rw [hself]
    exact hkeep
  refine fun _ => post_map.mpr ?_
  have hput := locks_iput hlt hip
  simp only [State.iput, post_ite] at hput ⊢
  refine ⟨fun h => absurd h ?_, fun hn' => ⟨fun h => absurd h hkeep', fun h => ⟨(hput.2 hn').2 h, rfl, rfl,
    fun e he => ?_⟩⟩⟩
  · rw [hself]
    exact Bool.false_ne_true
  · simp [ht, State.setCached, he]

/-- **`create` of a name that is missing** does not wait, and adds the name. -/
theorem createNew_adds (hs : Cache s) (hl : Locks [dp] s) (hpos : 0 < (s.icache dp).ref)
    (hvalid : (s.icache dp).valid = true) (hlacks : Lacks s dp name) (type major minor : Int16) :
    (createNew dp name type major minor).wp (perform p) anyway NotBlocked
      (fun ip t => Locks [ip] t ∧ (type ≠ T_DIR → ¬ s.Frees dp → Format s →
        Has t (s.icache dp).inum name ∧ (t.icache ip).nlink ≠ 0)) s := by
  unfold createNew
  refine wp_call_bind rfl ?_
  rw [hs.dev dp hpos]
  have hcalm := calm_perform (p := p) s (o := .ialloc ROOTDEV type) rfl
  refine fun _ => (hcalm.and (ialloc_fresh hs hpos hvalid type)).mono (fun r hr => ?_) fun _ he => he.1
  obtain ⟨ip, t⟩ := r
  obtain ⟨hsame, hne, hstillt, hinumt, hvalidt, hsizet, hrange⟩ := hr
  dsimp only at hsame hne hstillt hinumt hvalidt hsizet hrange ⊢
  have hlt := hl.congr hsame
  have hlock : (call (.ilock ip)).wp (perform p) anyway NotBlocked (fun _ u => Locks [ip, dp] u ∧
      Still t u dp ∧ (u.icache ip).inum = (t.icache ip).inum ∧ (u.icache ip).size = 0) t := by
    intro _
    refine post_map.mpr (((locks_ilock hlt (by simpa using hne)).and (Q := fun u => Still t u dp ∧
      (u.icache ip).inum = (t.icache ip).inum ∧ (u.icache ip).size = 0) (F := fun _ => True) ?_).mono
        (fun _ hr => hr) fun _ he => he.1)
    simp only [State.ilock, post_ite]
    refine ⟨fun _ => trivial, fun _ => ⟨fun _ => trivial, fun _ => ⟨fun hv => ?_, fun _ =>
      ⟨fun _ => trivial, fun _ => ⟨.setCached t hne, ?_, ?_⟩⟩⟩⟩⟩
    · rw [hvalidt] at hv
      cases hv
    · simp [State.setCached, State.load]
    · simpa [State.setCached, State.load] using hsizet
  refine hlock.bind fun _ u hu => fun _ _ _ => ?_
  obtain ⟨hlu, hstillu, hinumu, hsizeu⟩ := hu
  set u₁ := u.setCached ip { u.icache ip with major := major, minor := minor } with hu₁
  set u₂ := u₁.setCached ip { u₁.icache ip with nlink := 1 } with hu₂
  set v := u₂.iupdate ip with hv
  have hlv : Locks [ip, dp] v := hlu.congr (((SameLocks.setCached u (by rfl)).trans
    (.setCached u₁ (by rfl))).trans (.iupdate _ ip))
  have hself : v.icache ip = { u.icache ip with major := major, minor := minor, nlink := 1 } := by
    simp [hv, hu₂, hu₁, State.iupdate_icache, State.setCached]
  have hstill₂ : Still s u₂ dp :=
    (hstillt.trans hstillu).trans ((Still.setCached u hne).trans (.setCached u₁ hne))
  have hstill : Still s v dp := by
    refine hstill₂.trans (.iupdate ?_)
    rw [hstill₂.icache]
    simpa [hu₂, hu₁, State.setCached, hinumu] using hinumt
  have hinumv : (v.icache ip).inum ≠ (v.icache dp).inum := by
    rw [hself, hstill.icache]
    exact hinumu.trans_ne hinumt
  have hdots : (doIf (type = T_DIR) (createDots ip dp)).wp (perform p) anyway NotBlocked
      (fun _ w => Locks [ip, dp] w ∧ Lacks w dp name ∧ (type ≠ T_DIR → w = v)) v := by
    unfold doIf
    split
    next hdir =>
      refine (createDots_unblocked hlv hne hinumv ?_ (hstill.untouched.lacks hlacks)).mono
        fun _ w hw => ⟨hw.1, hw.2, fun hn => absurd hdir hn⟩
      rw [hself]
      exact hsizeu
    next => exact ⟨hlv, hstill.untouched.lacks hlacks, fun _ => rfl⟩
  refine hdots.bind fun _ w hw => wp_call_bind rfl ?_
  obtain ⟨hlw, hlacksw, hwv⟩ := hw
  refine (dirlink_lacks hlw hlacksw _).bind fun _ x hx => wp_check (notBlocked_panic _) fun _ => ?_
  obtain ⟨hlx, w', off, hw', hoff, hwritten, hx⟩ := hx
  obtain ⟨size, hicache⟩ := icache_writeDirent w' dp off ⟨(w.icache ip).inum, name⟩
  rw [← hx, hw'.icache] at hicache
  have hdp : x.icache dp = { w.icache dp with size := size } := by rw [hicache, update_self]
  by_cases hkeep : type ≠ T_DIR ∧ ¬ x.Frees dp
  · obtain ⟨htype, hkeep⟩ := hkeep
    refine (iunlockput_keeps hlx.swap (by simpa using hne.symm) hkeep).bind
      fun _ y hy => ⟨hy.1, fun _ _ hformat => ?_⟩
    obtain ⟨-, hdinode, hentry, hother⟩ := hy
    obtain rfl := hwv htype
    have hdisk : (v.dinode (v.icache dp).inum).size = (v.icache dp).size := by
      rw [hstill.icache, hstill.size, (hs.coherent dp hpos hvalid).1]
      rfl
    rw [← hw'.dinode, ← hw'.icache] at hdisk
    have hhas := has_writeDirent hoff hwritten ?_ hdisk ?_
    · rw [← hx, hw'.icache, hstill.icache] at hhas
      refine ⟨?_, ?_⟩
      · unfold Has
        rw [hdinode, hentry]
        exact hhas
      · rw [hother ip hne, hicache, update_of_ne hne, hself]
        exact (by decide : (1 : Int16) ≠ 0)
    · have hin := hformat.inodes
      rw [hself]
      dsimp only
      rw [hinumu, Nat.mod_eq_of_lt (by omega)]
      omega
    · rw [← hdisk, hw'.dinode, hw'.icache, hstill.icache, hstill.size]
      exact hformat.sizes _
  · have hput : Unblocked p [ip, dp] (iunlockput dp) fun _ => [ip] :=
      .swap (.iunlockput (by simpa using hne.symm))
    refine (hput x hlx).bind fun _ y hly => ⟨hly, fun htype hstays =>
      absurd ⟨htype, fun hfrees => hstays ?_⟩ hkeep⟩
    obtain rfl := hwv htype
    unfold State.Frees at hfrees ⊢
    rwa [hdp, hstill.icache] at hfrees

/-! ## Link counts -/

/-- The link count of an inode changes. -/
def Image.setNlink (D : Image) (i : ℕ) (n : Int16) : Image :=
  ⟨update D.dinode i { D.dinode i with nlink := n }, D.entry⟩

theorem Image.sameShape_setNlink (D : Image) (i : ℕ) (n : Int16) : SameShape D (D.setNlink i n) := by
  refine ⟨fun j => ?_, fun j => ?_, rfl⟩
  all_goals
    by_cases hj : j = i
    · subst hj
      simp [setNlink]
    · simp [setNlink, hj]

/-- **The link count of an inode is changed and written back.** -/
theorem Cache.relink (ht : Cache t) (hwords : Words t) (hpos : 0 < (t.icache ip).ref)
    (hvalid : (t.icache ip).valid = true) (n : Int16) {v : State}
    (hv : v = (t.setCached ip { t.icache ip with nlink := n }).iupdate ip) :
    Cache v ∧ Words v ∧ v.image = t.image.setNlink (t.icache ip).inum n ∧ v.proc = t.proc ∧
      v.ninodes = t.ninodes ∧ v.blocks = t.blocks ∧
      ∀ e, (v.icache e).inum = (t.icache e).inum ∧ (v.icache e).ref = (t.icache e).ref := by
  obtain ⟨hsame, htype⟩ := ht.coherent ip hpos hvalid
  have hword := hwords ip hpos hvalid
  set c : Cached := { t.icache ip with nlink := n } with hc
  have hcache : v.icache = update t.icache ip c := by
    rw [hv, State.iupdate_icache]
    rfl
  have hself : v.icache ip = c := by rw [hcache, update_self]
  have hother : ∀ e, e ≠ ip → v.icache e = t.icache e := fun e he => by
    rw [hcache, update_of_ne he]
  have hid : ∀ e, (v.icache e).inum = (t.icache e).inum ∧ (v.icache e).ref = (t.icache e).ref ∧
      (v.icache e).dev = (t.icache e).dev ∧ (v.icache e).valid = (t.icache e).valid ∧
      (v.icache e).last = (t.icache e).last := by
    intro e
    by_cases he : e = ip
    · rw [he, hself]
      exact ⟨rfl, rfl, rfl, rfl, rfl⟩
    · rw [hother e he]
      exact ⟨rfl, rfl, rfl, rfl, rfl⟩
  have himage : v.image = t.image.setNlink (t.icache ip).inum n := by
    rw [hv, State.iupdate_image ((State.wordKept_setCached (c := c) rfl rfl rfl rfl).mpr hword)]
    simp [State.setCached, hc, Image.setNlink, hsame, Cached.dinode, State.image]
  have hdinode : v.dinode = update t.dinode (t.icache ip).inum c.dinode := by
    have hd := congrArg Image.dinode himage
    simpa [Image.setNlink, hsame, hc, Cached.dinode] using hd
  -- type and major number of every inode stay
  have hnext : ∀ i, ¬ State.lastOfBlock i → v.nextWord i = t.nextWord i := by
    intro i hi
    rw [State.nextWord, State.nextWord, if_neg hi, if_neg hi, hdinode]
    by_cases heq : i + 1 = (t.icache ip).inum
    · rw [heq, update_self, hsame]
      rfl
    · rw [update_of_ne heq]
  refine ⟨⟨⟨fun e => ?_, fun e he => ?_, fun e e' he he' => ?_⟩, fun e he hve => ?_⟩,
    fun e he hve => ?_, himage, ?_, ?_, ?_, fun e => ⟨(hid e).1, (hid e).2.1⟩⟩
  · rw [(hid e).2.1]
    exact ht.nonneg e
  · rw [(hid e).2.1] at he
    rw [(hid e).2.2.1]
    exact ht.dev e he
  · rw [(hid e).2.1] at he
    rw [(hid e').2.1] at he'
    rw [(hid e).1, (hid e').1]
    exact ht.unique e e' he he'
  · by_cases hei : e = ip
    · subst hei
      rw [hself, hdinode]
      exact ⟨update_self .., htype⟩
    · rw [hother e hei] at he hve ⊢
      obtain ⟨hsame', htype'⟩ := ht.coherent e he hve
      refine ⟨?_, htype'⟩
      rw [hdinode, update_of_ne fun heq => hei (ht.unique e ip he hpos heq)]
      exact hsame'
  · rw [(hid e).2.1] at he
    rw [(hid e).2.2.2.1] at hve
    rw [State.WordKept, (hid e).1, (hid e).2.2.2.2]
    by_cases hblock : State.lastOfBlock (t.icache e).inum
    · exact .inl hblock
    · exact .inr (((hwords e he hve).resolve_left hblock).trans (hnext _ hblock).symm)
  all_goals
    rw [hv]
    simp only [State.iupdate, State.setNextWord]
    split <;> rfl

/-- **The link to inode `i`, which has been found, has been counted**: paths lead where they led before. -/
structure Relinked (b v : State) (ip : InodePtr) (i : ℕ) (n : Int16) : Prop where
  cache : Cache v
  words : Words v
  self : (v.icache ip).inum = i
  image : v.image = b.image.setNlink i n
  proc : v.proc = b.proc
  ninodes : v.ninodes = b.ninodes
  blocks : Mapped b → v.blocks = b.blocks
  inum : ∀ e, 0 < (b.icache e).ref → (v.icache e).inum = (b.icache e).inum
  ref : ∀ e, (v.icache e).ref = (b.icache e).ref + one ip e

namespace Relinked

variable {v : State} {i : ℕ} {n : Int16}

theorem of_trail (ht : Trail b t (one ip)) (hb : Cache b) (hwords : Words b)
    (hvalid : (t.icache ip).valid = true) (hi : (t.icache ip).inum = i)
    (hv : v = (t.setCached ip { t.icache ip with nlink := n }).iupdate ip) : Relinked b v ip i n := by
  obtain ⟨hcache, hwordsv, himage, hproc, hninodes, hblocks, hid⟩ := ht.cache.relink (ht.words hwords)
    (ht.ref_pos hb (by simp [one])) hvalid n hv
  refine ⟨hcache, hwordsv, (hid ip).1.trans hi, ?_, hproc.trans ht.proc,
    hninodes.trans ht.ninodes, fun h => hblocks.trans (ht.blocks h), fun e he => ?_, fun e => ?_⟩
  · rw [himage, ht.image, hi]
  · rw [(hid e).1, ht.inum e he]
  · rw [(hid e).2, ht.ref e]

variable (hv : Relinked b v ip i n)

include hv

theorem ref_pos (hb : Cache b) : 0 < (v.icache ip).ref := by
  have href := hv.ref ip
  have hnonneg := hb.nonneg ip
  simp only [one, Pi.single_eq_same] at href
  omega

theorem shape : SameShape b.image v.image := by
  rw [hv.image]
  exact b.image.sameShape_setNlink i n

theorem mapped (h : Mapped b) : Mapped v := by
  intro d hdir bn hbn
  rw [hv.blocks h]
  refine h d ((hv.shape.type d).symm.trans hdir) bn (hbn.trans_eq ?_)
  exact hv.shape.size d

/-- Paths have been followed since. -/
theorem trail (hb : Cache b) (ht : Trail v t 0) : Relinked b t ip i n := by
  refine ⟨ht.cache, ht.words hv.words, (ht.inum ip (hv.ref_pos hb)).trans hv.self, ht.image.trans hv.image,
    ht.proc.trans hv.proc, ht.ninodes.trans hv.ninodes, fun h => (ht.blocks (hv.mapped h)).trans (hv.blocks h),
    fun e he => ?_, fun e => ?_⟩
  · rw [ht.inum e (by rw [hv.ref e]; omega), hv.inum e he]
  · rw [ht.ref e, hv.ref e]
    simp

theorem cached (hb : Cache b) : v.cached = insert i b.cached := by
  rw [← hv.self]
  exact cached_eq_insert hb hv.ref hv.inum

theorem dinode {j : ℕ} (hj : j ≠ i) : v.dinode j = b.dinode j := by
  rw [← State.image_dinode, hv.image]
  exact update_of_ne hj ..

theorem bare (hb : Cache b) (hbare : Bare b) : Bare v := by
  intro j hj hzero
  rw [hv.cached hb, Finset.mem_insert, not_or] at hj
  rw [hv.dinode hj.1] at hzero ⊢
  exact hbare j hj.2 hzero

end Relinked

/-- **What a call that fails leaves.** -/
def Undone (s : State) (r : ℤ) (t : State) : Prop := r = -1 → Trail s t 0

theorem Image.setNlink_setNlink (D : Image) (i : ℕ) (m n : Int16) :
    (D.setNlink i m).setNlink i n = D.setNlink i n := by
  simp [Image.setNlink]

theorem Image.setNlink_self (D : Image) (i : ℕ) : D.setNlink i (D.dinode i).nlink = D := by
  simp [Image.setNlink]

namespace Relinked

variable {i : ℕ} {n : Int16} (hv : Relinked s t ip i n) (hs : Cache s)

include hv hs

/-- What is not freed before is not freed after. -/
theorem lasting {j : ℕ} (hj : Lasting s j) : Lasting t j := by
  by_cases heq : j = i
  · left
    rw [hv.cached hs, heq]
    exact Finset.mem_insert_self _ _
  · rcases hj with hmem | hrest
    · left
      rw [hv.cached hs]
      exact Finset.mem_insert_of_mem hmem
    · right
      rwa [hv.dinode heq]

theorem linked (h : Linked s) : Linked t := by
  constructor
  · exact hv.lasting hs h.root
  · intro d name j hdir hfound
    rw [hv.shape.lookup] at hfound
    refine hv.lasting hs (h.entry d name j ?_ hfound)
    exact (hv.shape.type d).symm.trans hdir

/-- The count in memory. -/
theorem nlink (hvalid : (t.icache ip).valid = true) : (t.icache ip).nlink = n := by
  obtain ⟨hsame, -⟩ := hv.cache.coherent ip (hv.ref_pos hs) hvalid
  rw [hv.self, ← State.image_dinode, hv.image] at hsame
  have hnlink := congrArg Dinode.nlink hsame
  simpa [Image.setNlink, Cached.dinode] using hnlink.symm

/-- The link is not counted any more. -/
theorem trail_of_relink (hvalid : (t.icache ip).valid = true) {v : State} {m : Int16}
    (hm : m = (s.dinode i).nlink)
    (htv : v = (t.setCached ip { t.icache ip with nlink := m }).iupdate ip) : Trail s v (one ip) := by
  obtain ⟨hcache, hwords, himage, hproc, hninodes, hblocks, hid⟩ :=
    hv.cache.relink hv.words (hv.ref_pos hs) hvalid m htv
  refine ⟨hcache, fun _ => hwords, fun e => ?_, fun e he => ?_, ?_, hproc.trans hv.proc,
    hninodes.trans hv.ninodes, fun h => hblocks.trans (hv.blocks h)⟩
  · rw [(hid e).2, hv.ref e]
  · rw [(hid e).1, hv.inum e he]
  · rw [himage, hv.image, hv.self, Image.setNlink_setNlink, hm]
    exact Image.setNlink_self s.image i

/-- **`bad` of `link` undoes the link.** -/
theorem linkBad_undoes (hn : n - 1 = (s.dinode i).nlink) (hl : Locks [] t) :
    (linkBad ip).wp (perform p) anyway NotBlocked
      (fun r t' => Lasting s i → Undone s r t') t := by
  unfold linkBad
  refine fun _ => post_map.mpr (((locks_ilock hl not_mem_nil).and ((Trail.refl hv.cache).ilock
    hv.cache (hv.ref_pos hs) (hl.of_not_mem not_mem_nil))).mono (fun t₁ hr => ?_) fun _ he => he.1)
  obtain ⟨hl₁, ht₁, hvalid₁, -⟩ := hr
  have hv₁ := hv.trail hs ht₁
  refine wp_call_bind rfl fun _ _ => ?_
  set w := (t₁.setCached ip { t₁.icache ip with nlink := (t₁.icache ip).nlink - 1 }).iupdate ip with hw
  have hlw : Locks [ip] w := hl₁.congr ((SameLocks.setCached t₁ (by rfl)).trans (.iupdate _ ip))
  have htw : Trail s w (0 + one ip) := by
    rw [zero_add]
    refine hv₁.trail_of_relink hs hvalid₁ ?_ hw
    rw [hv₁.nlink hs hvalid₁, hn]
  have hself : (w.icache ip).inum = i := by
    rw [hw, State.iupdate_icache]
    simpa [State.setCached] using hv₁.self
  refine (htw.unlockPut hs hlw not_mem_nil).seq (fun _ he => he.1)
    fun _ t' hrest => fun _ hlast _ => ?_
  rw [hself] at hrest
  exact (hrest.2 hlast).1

end Relinked

/-! ## `link` and `unlink` -/

/-- What follows a call that does not wait any more. -/
theorem wp_idle {prog : M ℤ} {W : Prop} {Q : ℤ → State → Prop} (hW : ¬ W)
    (hprog : prog.wp (perform p) anyway NotBlocked Q t) :
    prog.wp (perform p) anyway (fun e => e = .blocked ↔ W) (fun r t => ¬ W ∧ Q r t) t :=
  hprog.weaken (fun _ _ hq => ⟨hW, hq⟩) fun _ he => iff_of_false he hW

section Calls

variable (hs : Ready s p)

include hs

/-- The second half of `link`, when the link has been counted. -/
theorem linkTo_spec {u : State} {i : ℕ} {n : Int16} (hv : Relinked s u ip i n)
    (hn : n - 1 = (s.dinode i).nlink) (hl : Locks [] u) (new : Path) {W : Prop}
    (hW : W ↔ ∃ d name, s.image.resolvePath (insert i s.cached) (s.cwdInum p) true new = some (d, name) ∧
      s.image.lookup d name = some d) : (do
    match ← nameiparent new with
    | none => linkBad ip
    | some (dp, name) =>
      call (.ilock dp)
      let d ← call (.inode dp)
      let c ← call (.inode ip)
      let linked ← (if d.dev ≠ c.dev then pure false else dirlink dp name c.inum)
      if linked = false then
        iunlockput dp
        linkBad ip
      else
        iunlockput dp
        call (.iput ip)
        call .endOp
        return 0 : M ℤ).wp (perform p) anyway (fun e => e = .blocked ↔ W)
      (fun r t => ¬ W ∧ (Linked s → Lasting s i → Undone s r t)) u := by
  obtain ⟨cwd, hcwd, hpos⟩ := hs.cwd
  have hposcwd : 0 < (u.icache cwd).ref := by
    rw [hv.ref]
    omega
  have hcwdu : u.cwdInum p = s.cwdInum p := by
    simp [State.cwdInum, hv.proc, hcwd, hv.inum cwd hpos]
  rw [← hv.cached hs.cache, ← hcwdu, ← hv.shape.resolvePath, ← hv.shape.lookup] at hW
  have hunresolved : u.image.resolvePath u.cached (u.cwdInum p) true new = none → ¬ W := by
    rintro hnone hw
    obtain ⟨d, name, hnew, -⟩ := hW.mp hw
    rw [hnone] at hnew
    cases hnew
  -- however it fails, the link is undone in a state in which no other reference is held
  have hbad : ∀ t, Locks [] t → (Linked s → Trail u t 0) → (linkBad ip).wp (perform p) anyway NotBlocked
      (fun r t => Linked s → Lasting s i → Undone s r t) t := by
    intro t hlt ht
    by_cases hlinked : Linked s
    · exact ((hv.trail hs.cache (ht hlinked)).linkBad_undoes hs.cache hn hlt).mono fun _ _ hq _ => hq
    · exact (Unblocked.linkBad ip t hlt).mono fun _ _ _ h => absurd h hlinked
  have hu : Ready u p := ⟨hv.cache, hs.kept.imp (hv.bare hs.cache) (hv.linked hs.cache), hl, cwd,
    by rw [hv.proc, hcwd], hposcwd⟩
  refine (hu.parent new).seq (fun e he => iff_of_false he.1 (hunresolved he.2.1)) fun r t hr => ?_
  rcases r with _ | ⟨dp, name⟩
  · exact wp_idle (hunresolved (resolvePath_eq_none hr.2.1)) (hbad t hr.1 fun hlinked =>
      hr.2.2 (hv.linked hs.cache hlinked))
  refine hr.seq (fun _ => False.elim) fun _ t₁ hat => wp_call_bind rfl (wp_call_bind rfl ?_)
  obtain ⟨d, hat⟩ := hat
  have hiff : W ↔ u.image.lookup d name = some d := by
    rw [hW]
    constructor
    · rintro ⟨d', name', hnew, hself⟩
      rw [hat.path] at hnew
      cases hnew
      exact hself
    · exact fun hself => ⟨_, _, hat.path, hself⟩
  have ht₁ := hat.trail
  have hip₁ : 0 < (t₁.icache ip).ref := by
    have href := hv.ref_pos hs.cache
    rw [ht₁.ref ip]
    omega
  rw [ht₁.cache.dev dp (ht₁.ref_pos hv.cache (by simp [one])), ht₁.cache.dev ip hip₁, if_neg (not_not.mpr rfl)]
  have hdirlink := ht₁.dirlink (p := p) hv.cache hat.locks hat.valid hat.type hat.inum name (t₁.icache ip).inum
  rw [← hiff] at hdirlink
  refine hdirlink.bind fun linked t₂ ht₂ => wp_idle (fun h => ht₂.2.1 (hiff.mp h)) ?_
  obtain ⟨hl₂, -, hfails⟩ := ht₂
  have hput := Unblocked.iunlockput (p := p) not_mem_nil t₂ hl₂
  split
  next hfalse =>
    by_cases hlinked : Linked s
    · have hlinkedu := hv.linked hs.cache hlinked
      obtain ⟨ht₂, hinum₂⟩ := hfails hfalse hlinkedu
      refine (ht₂.putLast hv.cache hl₂).seq (fun _ he => he.1)
        fun _ t₃ hrest => hbad t₃ hrest.1 fun _ => hrest.2 ?_
      rw [hinum₂]
      exact hat.lasting hlinkedu
    · exact hput.bind fun _ t₃ hl₃ => hbad t₃ hl₃ fun h => absurd h hlinked
  next =>
    exact hput.bind fun _ t₃ hl₃ => (Unblocked.iput not_mem_nil t₃ hl₃).bind
      fun _ _ _ => fun _ _ _ => by rintro ⟨⟩

/-- **`link`** waits exactly if the new name stands for the directory it would be written to, and has no
effect when it fails. -/
theorem sysLink_spec (hwords : Words s) (old new : Path) :
    (sysLink (some old) (some new)).wp (perform p) anyway
      (fun e => e = .blocked ↔ s.WaitsForItself p (.sysLink (some old) (some new)))
      (fun r t => ¬ s.WaitsForItself p (.sysLink (some old) (some new)) ∧ (Linked s → Undone s r t)) s := by
  obtain ⟨cwd, hcwd, hpos⟩ := hs.cwd
  have hb := hs.cache
  set W := s.WaitsForItself p (.sysLink (some old) (some new)) with hW
  have hunresolved : s.image.resolvePath s.cached (s.cwdInum p) false old = none → ¬ W := by
    rintro hnone ⟨i, n, hold, -⟩
    rw [hnone] at hold
    cases hold
  unfold sysLink
  refine wp_call_bind rfl ((namei_resolves hb hs.unlocked hcwd hpos hs.kept old).seq (fun e he =>
      iff_of_false he.1 (hunresolved he.2.1)) fun r t ⟨hlt, hr⟩ => ?_)
  rcases r with _ | ip
  · exact fun _ => ⟨hunresolved (resolvePath_eq_none hr.1), fun hlinked _ => hr.2 hlinked⟩
  obtain ⟨ht, ⟨n, hold⟩, hlast⟩ := hr
  have hiff : W ↔ s.image.Used (t.icache ip).inum ∧ ¬ s.image.IsDir (t.icache ip).inum ∧
      ∃ d name, s.image.resolvePath (insert (t.icache ip).inum s.cached) (s.cwdInum p) true new =
        some (d, name) ∧ s.image.lookup d name = some d := by
    constructor
    · rintro ⟨i, m, hold', hrest⟩
      rw [hold] at hold'
      cases hold'
      exact hrest
    · exact fun hrest => ⟨_, n, hold, hrest⟩
  refine (ht.lock hb (by simp [one]) hlt).seq (fun e he => iff_of_false he.1 fun hw => he.2 (hiff.mp hw).1)
    fun _ t₁ ⟨hl₁, ht₁, hvalid₁, hinum₁⟩ =>
      wp_call_bind rfl ?_
  have hpos₁ := ht₁.ref_pos hb (e := ip) (by simp [one])
  have hview := ht₁.view hpos₁ hvalid₁
  rw [hinum₁ ip] at hview
  split
  next hdir =>
    refine wp_idle (fun hw => (hiff.mp hw).2.1 ?_) ?_
    · rw [IsDir, hview]
      exact hdir
    · refine (ht₁.putLast hb hl₁).seq (fun _ he => he.1) fun _ t' ⟨_, hrest⟩ => fun _ hlinked _ => hrest ?_
      rw [hinum₁]
      exact hlast hlinked
  next hfile =>
    have hused : s.image.Used (t.icache ip).inum ∧ ¬ s.image.IsDir (t.icache ip).inum := by
      rw [Used, IsDir, hview]
      exact ⟨(ht₁.cache.coherent ip hpos₁ hvalid₁).2, hfile⟩
    rw [and_iff_right hused.1, and_iff_right hused.2] at hiff
    refine fun _ _ => ?_
    -- the state in which the link has been counted
    set v := (t₁.setCached ip { t₁.icache ip with nlink := (t₁.icache ip).nlink + 1 }).iupdate ip with hv
    have hrelv : Relinked s v ip (t.icache ip).inum _ := .of_trail ht₁ hb hwords hvalid₁ (hinum₁ ip) hv
    have hlv : Locks [ip] v := hl₁.congr ((SameLocks.setCached t₁ (by rfl)).trans (.iupdate _ ip))
    refine fun _ => post_map.mpr (((locks_iunlock hlv not_mem_nil).and
      ((Trail.refl hrelv.cache).iunlock hrelv.cache (hrelv.ref_pos hb)
        (hlv.of_mem mem_cons_self))).mono (fun u hr => ?_) fun _ he => he.2.elim)
    obtain ⟨hlu, hu, -⟩ := hr
    refine (linkTo_spec hs (hrelv.trail hb hu) ?_ hlu new hiff).mono
      fun _ _ hq => ⟨hq.1, fun hlinked => hq.2 hlinked (hlast hlinked)⟩
    rw [← State.image_dinode, hview]
    exact Int16.add_sub_cancel _ _

/-- **`unlink`** waits exactly if the name stands for the directory it is in, and has no effect when it
fails. -/
theorem sysUnlink_spec (path : Path) : (sysUnlink (some path)).wp (perform p) anyway
    (fun e => e = .blocked ↔ s.WaitsForItself p (.sysUnlink (some path)))
    (fun r t => ¬ s.WaitsForItself p (.sysUnlink (some path)) ∧ (Linked s → Undone s r t)) s := by
  obtain ⟨cwd, hcwd, hpos⟩ := hs.cwd
  have hb := hs.cache
  set W := s.WaitsForItself p (.sysUnlink (some path)) with hW
  have hunresolved : s.image.resolvePath s.cached (s.cwdInum p) true path = none → ¬ W := by
    rintro hnone ⟨d, name, hpath, -⟩
    rw [hnone] at hpath
    cases hpath
  unfold sysUnlink
  refine wp_call_bind rfl ((hs.parent path).seq (fun e he =>
    iff_of_false he.1 (hunresolved he.2.1)) fun r t hr => ?_)
  rcases r with _ | ⟨dp, name⟩
  · exact fun _ => ⟨hunresolved (resolvePath_eq_none hr.2.1), fun hlinked _ => hr.2.2 hlinked⟩
  refine hr.seq (fun _ => False.elim) fun _ t₁ hat => ?_
  obtain ⟨d, hat⟩ := hat
  have hiff : W ↔ name ≠ dot ∧ name ≠ dotdot ∧ s.image.lookup d name = some d := by
    constructor
    · rintro ⟨d', name', hpath', hrest⟩
      rw [hat.path] at hpath'
      cases hpath'
      exact hrest
    · exact fun hrest => ⟨_, _, hat.path, hrest⟩
  -- the directory is put with nothing done
  have hbad : ∀ t', Locks [dp] t' → (Linked s → Trail s t' (one dp) ∧ (t'.icache dp).inum = d) →
      (unlinkBad dp).wp (perform p) anyway NotBlocked (fun r t => Linked s → Undone s r t) t' := by
    intro t' hl' ht'
    by_cases hlinked : Linked s
    · obtain ⟨ht', hinum'⟩ := ht' hlinked
      refine (ht'.putLast hb hl').seq (fun _ he => he.1) fun _ t'' hrest => fun _ _ _ => hrest.2 ?_
      rw [hinum']
      exact hat.lasting hlinked
    · exact (Unblocked.unlinkBad dp t' hl').mono fun _ _ _ h => absurd h hlinked
  split
  next hdots =>
    refine wp_idle (fun hw => ?_) (hbad t₁ hat.locks fun _ => ⟨hat.trail, hat.inum⟩)
    exact hdots.elim (hiff.mp hw).1 (hiff.mp hw).2.1
  next hdots =>
    rw [not_or] at hdots
    rw [and_iff_right hdots.1, and_iff_right hdots.2] at hiff
    refine (hat.trail.lookupName hb hat.locks hat.valid hat.type hat.inum name).seq (fun e he =>
      iff_of_false he.1 fun hw => he.2.1 _ (hiff.mp hw) (.inl (Finset.mem_insert_self _ _)))
      fun r t₂ hr => ?_
    obtain ⟨hl₂, hr⟩ := hr
    rcases r with _ | ⟨ip, off⟩
    · obtain ⟨ht₂, hsame, hmissing⟩ := hr
      refine wp_idle (fun hw => ?_) (hbad _ hl₂ fun _ => ⟨ht₂, by rw [hsame, hat.inum]⟩)
      rw [hiff, hmissing] at hw
      cases hw
    obtain ⟨ht₂, hfound, -, hinum₂⟩ := hr
    rw [hfound, Option.some_inj] at hiff
    have hpos₂ := ht₂.ref_pos hb (e := ip) (by simp [one])
    by_cases heq : ip = dp
    · subst heq
      refine fun _ => post_map.mpr ?_
      simp only [State.ilock, if_neg (show ¬ (t₂.icache ip).ref < 1 by omega),
        if_pos (hl₂.of_mem mem_cons_self)]
      exact iff_of_true rfl (hiff.mpr hinum₂)
    have hne : ip ∉ [dp] := by simpa using heq
    refine wp_idle (fun hw => heq (ht₂.cache.unique ip dp hpos₂ (ht₂.ref_pos hb (by simp [one]))
      ((hiff.mp hw).trans hinum₂.symm))) ?_
    refine fun _ => post_map.mpr (((locks_ilock hl₂ hne).and (ht₂.ilock hb hpos₂
      (hl₂.of_not_mem hne))).mono (fun t₃ hr => ?_) fun _ he => he.1)
    obtain ⟨hl₃, ht₃, hvalid₃, hinum₃⟩ := hr
    refine wp_call_bind rfl (wp_check (notBlocked_panic _) fun _ => ?_)
    -- looking whether the directory is empty changes nothing in the cache
    have hempty : (if (t₃.icache ip).type = T_DIR then call (.isdirempty ip) else pure true : M Bool).wp
        (perform p) anyway NotBlocked (fun _ t' => Trail s t' (one ip + one dp) ∧ t'.icache = t₃.icache) t₃ := by
      split
      next hdir =>
        exact fun _ => ht₃.isdirempty (ht₃.ref_pos hb (by simp [one])) hvalid₃ hdir
      next => exact ⟨ht₃, rfl⟩
    refine hempty.bind ?_
    rintro empty t' ⟨ht', hsame⟩
    have hl₃ : Locks [ip, dp] t' := hl₃.congr (.of_icache hsame)
    split
    next =>
      rw [add_comm] at ht'
      refine (ht'.unlockPut hb hl₃ hne).seq (fun _ he => he.1)
        fun _ t₄ hrest => hbad t₄ hrest.1 fun hlinked => ?_
      have hlastip : Lasting s (t'.icache ip).inum := by
        rw [hsame, hinum₃]
        exact hlinked.entry _ _ _ hat.isDir hfound
      obtain ⟨ht₄, hinum₄⟩ := hrest.2 hlastip
      refine ⟨ht₄, (hinum₄ dp).trans ?_⟩
      rw [hsame, hinum₃, hinum₂]
    next =>
      have hne' : dp ∉ [ip] := by simpa using Ne.symm heq
      -- the name is removed
      refine (Unblocked.calm (p := p) rfl t' hl₃).bind fun _ _ hl => wp_check (notBlocked_panic _) fun _ => ?_
      have hdrop : Unblocked p [ip, dp] (doIf ((t₃.icache ip).type = T_DIR) (dropDotdot dp))
          fun _ => [ip, dp] :=
        .doIf (.calm_bind rfl fun _ => .calm_bind rfl fun _ => .calm rfl)
      refine (hdrop _ hl).bind fun _ _ hl => (Unblocked.iunlockput hne' _ hl.swap).bind fun _ _ hl => ?_
      refine (Unblocked.calm (p := p) rfl _ hl).bind fun _ _ hl => (Unblocked.calm (p := p) rfl _ hl).bind
        fun _ _ hl => (Unblocked.calm (p := p) rfl _ hl).bind fun _ _ hl => ?_
      exact (Unblocked.iunlockput not_mem_nil _ hl).bind fun _ _ _ => fun _ _ => by rintro ⟨⟩

end Calls

/-! ## `create` and `open` -/

/-- A path whose last name is missing in the directory above. -/
def State.Missing (s : State) (p : ℕ) (path : Path) : Prop :=
  ∃ d name, s.image.walkPath (s.cwdInum p) true path = some (d, name) ∧ s.image.lookup d name = none

/-- **A name has been added.** -/
def Added (s t : State) : Prop := ∃ d name, s.image.lookup d name = none ∧ t.image.lookup d name ≠ none

/-- What `create` leaves. -/
def Created (s : State) (p : ℕ) (path : Path) (type : Int16) : Option InodePtr → State → Prop
  | none, t => Locks [] t ∧ ¬ s.Missing p path ∧ (Linked s → Trail s t 0)
  | some ip, t => Locks [ip] t ∧ (type ≠ T_FILE → s.Missing p path ∧
      (type ≠ T_DIR → Linked s → Format s → Added s t ∧ (t.icache ip).nlink ≠ 0))

section Calls

variable (hs : Ready s p)

include hs

/-- **`create` reuses a file only for the type `T_FILE`.** -/
theorem create_spec (path : Path) (type major minor : Int16) :
    (create path type major minor).wp (perform p) anyway NotBlocked (Created s p path type) s := by
  have hb := hs.cache
  unfold create
  refine (hs.parent path).seq (fun e he => he.1) fun r t hr => ?_
  rcases r with _ | ⟨dp, name⟩
  · refine ⟨hr.1, ?_, hr.2.2⟩
    rintro ⟨d, name, hpath, -⟩
    rw [hr.2.1] at hpath
    cases hpath
  refine hr.seq (fun _ => False.elim) fun _ t₁ ⟨d, hat⟩ => ?_
  have ht₁ := hat.trail
  have hpath := walkPath_of_resolvePath hat.path
  have hpos₁ := ht₁.ref_pos hb (e := dp) (by simp [one])
  have hview := ht₁.view hpos₁ hat.valid
  rw [hat.inum] at hview
  refine (ht₁.lookupName hb hat.locks hat.valid hat.type hat.inum name).seq (fun e he => he.1)
    fun r t₂ ⟨hl₂, hr⟩ => ?_
  rcases r with _ | ⟨ip, off⟩
  · obtain ⟨ht₂, hsame, hmissing⟩ := hr
    rw [← hsame] at hpos₁ hview
    have hvalid₂ := hat.valid
    have hinum₂ := hat.inum
    rw [← hsame] at hvalid₂ hinum₂
    have hlacks : Lacks t₂ dp name := by
      intro k hk hinum hname
      have hfind := find?_eq_none.mp (Option.map_eq_none_iff.mp hmissing) k (mem_range.mpr (by
        rw [hview]
        exact hk))
      rw [← ht₂.image, ← hinum₂] at hfind
      exact hfind (decide_eq_true ⟨hinum, hname⟩)
    refine (createNew_adds ht₂.cache hl₂ hpos₁ hvalid₂ hlacks type major minor).bind
      fun ip t' ⟨hl', hadds⟩ => ⟨hl', fun _ => ⟨⟨_, name, hpath, hmissing⟩, fun htype hlinked hformat => ?_⟩⟩
    have hkeep : ¬ t₂.Frees dp := ht₂.not_frees hb (by simp [one]) (by
      rw [hinum₂]
      exact hat.lasting hlinked)
    have hformat' : Format t₂ := by
      constructor
      · rw [ht₂.ninodes]
        exact hformat.inodes
      · intro d
        rw [← State.image_dinode, ht₂.image]
        exact hformat.sizes d
    obtain ⟨hhas, hnlink⟩ := hadds htype hkeep hformat'
    rw [hinum₂] at hhas
    exact ⟨⟨_, name, hmissing, hhas.lookup_ne_none⟩, hnlink⟩
  · obtain ⟨ht₂, hfound, -, hinum₂⟩ := hr
    have hmissing : ¬ s.Missing p path := by
      rintro ⟨d, name', hpath', hnone⟩
      rw [hpath] at hpath'
      cases hpath'
      rw [hfound] at hnone
      cases hnone
    have hkeeps : Lasting s (t₂.icache dp).inum := by
      rw [hinum₂]
      exact hs.kept.elim (fun h => h.lasting (size_ne_zero_of_lookup hfound)) hat.lasting
    refine (ht₂.unlockPut hb hl₂ not_mem_nil).seq (fun e he => he.1)
      fun _ t₃ ⟨hl₃, hrest⟩ => ?_
    obtain ⟨ht₃, hinum₃⟩ := hrest hkeeps
    refine (ht₃.lock hb (by simp [one]) hl₃).seq (fun e he => he.1)
      fun _ t₄ ⟨hl₄, ht₄, _, hinum₄⟩ => wp_call_bind rfl ?_
    split
    next hfile => exact ⟨hl₄, fun htype => absurd hfile.1 htype⟩
    next =>
      refine (ht₄.putLast hb hl₄).seq (fun e he => he.1)
        fun _ t₅ ⟨hl₅, hrest⟩ => ⟨hl₅, hmissing, fun hlinked => hrest ?_⟩
      rw [hinum₄, hinum₃]
      exact hlinked.entry _ _ _ hat.isDir hfound

end Calls

/-- **What `open` leaves when it fails.** -/
structure OpenLeft (s : State) (p : ℕ) (path : Path) (omode : ℕ) (t : State) : Prop where
  added : omode &&& O_CREATE ≠ 0 ∧ s.Missing p path → Format s → Added s t
  undone : ¬ (omode &&& O_CREATE ≠ 0 ∧ s.Missing p path) → t.image = s.image

/-- What `open` leaves. -/
def OpenEnds (s : State) (p : ℕ) (path : Path) (omode : ℕ) (r : ℤ) (t : State) : Prop :=
  (r = -1 → Linked s → OpenLeft s p path omode t) ∧
    (r ≠ -1 → omode &&& O_CREATE ≠ 0 → s.Missing p path)

/-- What `open` has found or made, locked.  A symbolic link has been read, which may allocate blocks. -/
def Opened (s : State) (p : ℕ) (path : Path) (omode : ℕ) : Option InodePtr → State → Prop
  | none, t => Locks [] t ∧ ¬ (omode &&& O_CREATE ≠ 0 ∧ s.Missing p path) ∧ (Linked s → t.image = s.image)
  | some ip, t => Locks [ip] t ∧ if omode &&& O_CREATE ≠ 0 then s.Missing p path ∧
        (Linked s → Format s → Added s t ∧ (t.icache ip).nlink ≠ 0)
      else ∃ bs, Trail { s with blocks := bs } t (one ip) ∧ (Linked s → Lasting s (t.icache ip).inum)

/-- Blocks are allocated on the way. -/
theorem Trail.rebase (ht : Trail b t h) (bs : ℕ → ℕ → ℕ) :
    Trail { b with blocks := bs } { t with blocks := bs } h :=
  ⟨⟨⟨ht.cache.nonneg, ht.cache.dev, ht.cache.unique⟩, ht.cache.coherent⟩, ht.words, ht.ref, ht.inum,
    ht.image, ht.proc, ht.ninodes, fun _ => rfl⟩

theorem Cache.rebase (hb : Cache b) (bs : ℕ → ℕ → ℕ) : Cache { b with blocks := bs } :=
  ((Trail.refl hb).rebase bs).cache

theorem openInode_spec (hs : Ready s p) (path : Path) (omode : ℕ) :
    (openInode path omode).wp (perform p) anyway NotBlocked (Opened s p path omode) s := by
  obtain ⟨cwd, hcwd, hpos⟩ := hs.cwd
  have hb := hs.cache
  unfold openInode
  split
  next hcreate =>
    -- `O_CREATE` and `O_EXTENT` are one bit
    refine (create_spec hs path T_EXTENT 0 0).mono fun r t hr => ?_
    rcases r with _ | ip
    · exact ⟨hr.1, fun h => hr.2.1 h.2, fun hlinked => (hr.2.2 hlinked).image⟩
    · obtain ⟨hmissing, hadded⟩ := hr.2 (by decide)
      refine ⟨hr.1, ?_⟩
      rw [if_pos hcreate]
      exact ⟨hmissing, hadded (by decide)⟩
  next hplain =>
    have hplain' : ¬ (omode &&& O_CREATE ≠ 0 ∧ s.Missing p path) := fun h => hplain h.1
    refine (namei_resolves hb hs.unlocked hcwd hpos hs.kept path).seq (fun e he => he.1) fun r t hr => ?_
    obtain ⟨hlt, hr⟩ := hr
    rcases r with _ | ip
    · exact ⟨hlt, hplain', fun hlinked => (hr.2 hlinked).image⟩
    obtain ⟨ht, -, hlast⟩ := hr
    refine (ht.lock hb (by simp [one]) hlt).seq (fun e he => he.1)
      fun _ t₁ ht₁ => wp_call_bind rfl ?_
    obtain ⟨hl₁, ht₁, -, hinum₁⟩ := ht₁
    -- a symbolic link is read, which changes nothing but the blocks
    have hread : (doIf ((t₁.icache ip).type = T_SYMLINK) do
        let _ ← call (.readi ip 0 20)).wp (perform p) anyway NotBlocked
          (fun _ t => ∃ bs, t = { t₁ with blocks := bs }) t₁ := by
      unfold doIf
      split
      next hlink =>
        have hexec : perform p t₁ (.readi ip 0 20) = .ok ((t₁.readi ip 0 20).1, (t₁.readi ip 0 20).2) := rfl
        refine wp_call_bind hexec ?_
        simp only [State.readi, hlink]
        rw [if_neg (by decide)]
        split <;> exact ⟨_, rfl⟩
      next => exact ⟨_, rfl⟩
    refine hread.bind ?_
    rintro _ _ ⟨bs, rfl⟩
    have ht' := ht₁.rebase bs
    have hlasts : Linked s → Lasting s (t₁.icache ip).inum := fun hlinked => by
      rw [hinum₁]
      exact hlast hlinked
    split
    next =>
      exact (ht'.putLast (hb.rebase bs) hl₁).seq (fun e he => he.1)
        fun _ t₂ hrest => ⟨hrest.1, hplain', fun hlinked => (hrest.2 (hlasts hlinked)).image⟩
    next =>
      refine ⟨hl₁, ?_⟩
      rw [if_neg hplain]
      exact ⟨bs, ht', hlasts⟩

namespace Opened

variable {path : Path} {omode : ℕ}

theorem setFile (ht : Opened s p path omode (some ip) t) (f : FilePtr) (v : FileEntry) :
    Opened s p path omode (some ip) (t.setFile f v) := by
  refine ⟨ht.1, ?_⟩
  have hrest := ht.2
  split at hrest
  next hcreate =>
    rw [if_pos hcreate]
    exact hrest
  next hplain =>
    obtain ⟨bs, hrest, hlast⟩ := hrest
    rw [if_neg hplain]
    exact ⟨bs, hrest.setFile f v, hlast⟩

/-- There is no file or no descriptor left. -/
theorem openBad (ht : Opened s p path omode (some ip) t) (hb : Cache s) :
    (openBad ip).wp (perform p) anyway NotBlocked (OpenEnds s p path omode) t := by
  obtain ⟨hl, hrest⟩ := ht
  unfold Sysfile.openBad
  by_cases hcreate : omode &&& O_CREATE ≠ 0
  · rw [if_pos hcreate] at hrest
    by_cases hcond : Linked s ∧ Format s
    · obtain ⟨⟨d, name, hnone, hsome⟩, hnlink⟩ := hrest.2 hcond.1 hcond.2
      refine (iunlockput_keeps hl not_mem_nil fun hfrees => hnlink hfrees.2.1).bind
        fun _ t' ht' => fun _ =>
          ⟨fun _ _ => ⟨fun _ _ => ⟨d, name, hnone, ?_⟩, fun hn => absurd ⟨hcreate, hrest.1⟩ hn⟩,
            fun h => absurd rfl h⟩
      rw [State.image, ht'.2.1, ht'.2.2.1]
      exact hsome
    · exact (Unblocked.iunlockput not_mem_nil t hl).bind fun _ _ _ => fun _ =>
        ⟨fun _ hlinked => ⟨fun _ hformat => absurd ⟨hlinked, hformat⟩ hcond,
          fun hn => absurd ⟨hcreate, hrest.1⟩ hn⟩, fun h => absurd rfl h⟩
  · rw [if_neg hcreate] at hrest
    obtain ⟨bs, ht, hlast⟩ := hrest
    exact (ht.putLast (hb.rebase bs) hl).seq (fun e he => he.1) fun _ t' hput => fun _ => ⟨fun _ hlinked =>
      ⟨fun h => absurd h.1 hcreate, fun _ => (hput.2 (hlast hlinked)).image⟩, fun h => absurd rfl h⟩

end Opened

/-- Closing a file that is of no type touches no inode. -/
theorem fileclose_none {f : FilePtr} (hf : (s.ftable f).type = .none) :
    (fileclose (some f)).wp (perform p) anyway NotBlocked (fun _ t => ∃ v, t = s.setFile f v) s := by
  intro _
  simp only [perform, State.filedrop, post_ite]
  refine ⟨fun _ => notBlocked_panic _, fun _ => ⟨fun _ => ⟨_, rfl⟩, fun _ => ?_⟩⟩
  rw [post_ok]
  show (closeLast _).wp _ _ _ _ _
  simp only [closeLast, hf]
  exact ⟨_, rfl⟩

theorem Unblocked.fdalloc (f : FilePtr) : Unblocked p L (fdalloc f) fun _ => L := by
  unfold Sysfile.fdalloc
  induction finRange NOFILE with
  | nil => exact .ret none
  | cons fd fds ih =>
    unfold fdallocLoop
    refine .calm_bind rfl fun r => ?_
    cases r with
    | none => exact .calm_bind rfl fun _ => .ret (some fd)
    | some _ => exact ih

/-- **`open`** does not wait; what it leaves when it fails. -/
theorem sysOpen_spec (hs : Ready s p) (hrest : Rest s) (hlive : (s.proc p).live = true) (path : Path)
    (omode : ℕ) : (sysOpen (some path) (some omode)).wp (perform p) anyway NotBlocked
      (OpenEnds s p path omode) s := by
  have hi := hrest.inodes
  rw [← add_zero (0 : InodePtr → ℕ)] at hi
  have hopen := (openInode_spec hs path omode).and
    ((keeps_openInode path omode).run hi hrest.files (hrest.files.present p nofun hlive))
  unfold sysOpen
  refine wp_call_bind rfl (hopen.seq (fun _ he => he.1)
    fun r t ⟨hr, _, hft, _⟩ => ?_)
  rcases r with _ | ip
  · exact fun _ => ⟨fun _ hlinked => ⟨fun h => absurd h hr.2.1, fun _ => hr.2.2 hlinked⟩,
      fun h => absurd rfl h⟩
  have halloc := (Unblocked.calm (p := p) (o := .filealloc) rfl t hr.1).and (filealloc_spec hft)
  refine halloc.seq (fun _ he => he.1) fun r' u ⟨_, hr'⟩ => ?_
  obtain ⟨rfl, rfl⟩ | ⟨f, rfl, -, htype, hu, -⟩ := hr'
  · exact hr.openBad hs.cache
  have hru : Opened s p path omode (some ip) u := by
    rw [hu]
    exact hr.setFile f _
  have hfd := (Unblocked.fdalloc (p := p) f u hru.1).and (fdalloc_spec f)
  refine hfd.seq (fun _ he => he.1) fun r' v ⟨hlv, hv⟩ => ?_
  rcases r' with _ | fd
  · obtain rfl : v = u := hv
    refine (fileclose_none ?_).bind fun _ w ⟨_, hw⟩ => Opened.openBad ?_ hs.cache
    · rw [hu]
      simpa [State.setFile] using htype
    · rw [hw]
      exact hru.setFile f _
  · refine (Unblocked.iunlock not_mem_nil v hlv).bind fun _ _ _ => fun _ _ => ?_
    have hmade := hr.2
    refine ⟨fun h => ?_, fun _ hcreate => ?_⟩
    · exact absurd h (by omega)
    · rw [if_pos hcreate] at hmade
      exact hmade.1

end Sysfile
