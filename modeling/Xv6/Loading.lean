/-
# What becomes of an executable

The loop of `exec` over the program headers, for a file of arbitrary bytes.  The headers are values that the
file chooses: segments may overlap, come in any order, be empty or wrap around.  What `loaduvm` relies on is
that `allocuvm` has just grown the address space beyond the end of the segment, or found it that long already;
so every page it looks up is there.

* `imageSize` and `imageByte` say what the file asks for, from its `PT_LOAD` headers.
* `Filled` says that an address space under construction holds certain bytes.
* `loading_safe` is the result: the loop never panics, and what it builds is what the file asks for.
-/
import Xv6.LazyFork

open Outcome List

/-! ## What the file asks for -/

namespace Exec

/-- The program headers of the file, as far as they can be read. -/
def headers (ip : File) : ℕ → ℕ → List Proghdr
  | 0, _ => []
  | count + 1, off =>
    match proghdr ip off with
    | none => []
    | some ph => ph :: headers ip count (u32 (off + 32))

/-- The `PT_LOAD` headers among some headers. -/
def loads (phs : List Proghdr) : List Proghdr := phs.filter fun ph => ph.type = ELF_PROG_LOAD

/-- The `PT_LOAD` headers of the file. -/
def segments (ip : File) : List Proghdr := loads (headers ip (ip.field 44 2) (ip.field 28 4))

/-- The largest `vaddr + memsz`. -/
def imageSize (segs : List Proghdr) : ℕ := segs.foldr (fun ph sz => max (ph.vaddr + ph.memsz) sz) 0

/-- The part of a segment that comes from the file covers the address. -/
def Covers (va : ℕ) (ph : Proghdr) : Prop := ph.vaddr ≤ va ∧ va < ph.vaddr + ph.filesz

instance (va : ℕ) : DecidablePred (Covers va) := fun _ => inferInstanceAs (Decidable (_ ∧ _))

/-- The byte at an address: that of the last segment whose file part covers it, or else the one that was there
before. -/
def imageByte (ip : File) (segs : List Proghdr) (before : ℕ → UInt8) (va : ℕ) : UInt8 :=
  match segs.reverse.find? fun ph => Covers va ph with
  | some ph => ip.byte (ph.off + (va - ph.vaddr))
  | none => before va

@[simp] theorem imageByte_nil (ip : File) (before : ℕ → UInt8) : imageByte ip [] before = before := rfl

theorem imageByte_singleton (ip : File) (ph : Proghdr) (before : ℕ → UInt8) (va : ℕ) :
    imageByte ip [ph] before va =
      if Covers va ph then ip.byte (ph.off + (va - ph.vaddr)) else before va := by
  unfold imageByte
  by_cases h : Covers va ph
  · simp [h]
  · simp [h]

/-- The first segment is covered by the ones after it. -/
theorem imageByte_cons (ip : File) (ph : Proghdr) (segs : List Proghdr) (before : ℕ → UInt8) :
    imageByte ip (ph :: segs) before = imageByte ip segs (imageByte ip [ph] before) := by
  funext va
  rw [show imageByte ip segs (imageByte ip [ph] before) va =
    match segs.reverse.find? fun ph => Covers va ph with
    | some ph => ip.byte (ph.off + (va - ph.vaddr))
    | none => imageByte ip [ph] before va from rfl, imageByte_singleton]
  unfold imageByte
  rw [reverse_cons, find?_append]
  cases segs.reverse.find? fun ph => Covers va ph with
  | some q => rfl
  | none =>
    by_cases h : Covers va ph
    · simp [h]
    · simp [h]

end Exec

/-! ## Bytes of an address space under construction -/

namespace Pgdir

variable {ld : Linker} {F : Set ℕ} {k : Kmem} {pg : Pgdir} {sz : ℕ} {c : ℕ → UInt8}

/-- The pages below `sz` are open to user code and hold the bytes `c`. -/
def Bytes (k : Kmem) (pg : Pgdir) (sz : ℕ) (c : ℕ → UInt8) : Prop :=
  ∀ j < npages sz, ∃ f, pg.entry j = some ⟨f, ⟨true, true⟩⟩ ∧ ∀ o < PGSIZE, k.page f o = c (j * PGSIZE + o)

/-- An address space under construction of `sz` bytes, with the bytes `c`. -/
structure Filled (ld : Linker) (F : Set ℕ) (k : Kmem) (pg : Pgdir) (sz : ℕ) (c : ℕ → UInt8) : Prop
    extends Loaded ld F k pg sz where
  bytes : Bytes k pg sz c

/-- The bytes of the frame behind page `j` are replaced; every other page has another frame. -/
theorem Bytes.setPage (h : Bytes k pg sz c) (hs : Sound ld k pg) (hsz : sz ≤ KERNBASE) {j f : ℕ}
    {b : ℕ → UInt8} {c' : ℕ → UInt8} (he : pg.entry j = some ⟨f, ⟨true, true⟩⟩) (hj : j < npages sz)
    (hin : ∀ o < PGSIZE, b o = c' (j * PGSIZE + o))
    (hout : ∀ va, va / PGSIZE ≠ j → c' va = c va) : Bytes (k.setPage f b) pg sz c' := by
  have hmax := npages_le hsz
  intro i hi
  by_cases hij : i = j
  · subst hij
    refine ⟨f, he, fun o ho => ?_⟩
    rw [Kmem.setPage_page_self]
    exact hin o ho
  · obtain ⟨g, hg, hbytes⟩ := h i hi
    have hne : g ≠ f := by
      rintro rfl
      have hi' : pg.frameOf (.page i) = some g := by
        simp [frameOf, show i < UPAGES by omega, hg]
      have hj' : pg.frameOf (.page j) = some g := by
        simp [frameOf, show j < UPAGES by omega, he]
      exact hij (Use.page.inj (hs.inj _ _ _ hi' hj'))
    refine ⟨g, hg, fun o ho => ?_⟩
    rw [Kmem.setPage_page_of_ne _ _ hne, hbytes o ho, hout]
    unfold PGSIZE at *
    omega

/-- No page below `sz` is in the frame `f`. -/
def Outside (pg : Pgdir) (sz f : ℕ) : Prop := ∀ j < npages sz, ∀ e, pg.entry j = some e → e.frame ≠ f

/-- What the loop of `loaduvm` leaves: the bytes of the file from page `m` of the segment on. -/
def segmentFrom (ip : File) (n offset filesz m : ℕ) (c : ℕ → UInt8) (va : ℕ) : UInt8 :=
  if (n + m) * PGSIZE ≤ va ∧ va < n * PGSIZE + filesz then ip.byte (offset + (va - n * PGSIZE)) else c va

/-- Page `m` of the segment, and then the pages after it. -/
theorem segmentFrom_succ (ip : File) (n offset filesz m : ℕ) (c : ℕ → UInt8) :
    segmentFrom ip n offset filesz m c = segmentFrom ip n offset filesz (m + 1) fun va =>
      if va / PGSIZE = n + m then segmentFrom ip n offset filesz m c va else c va := by
  funext va
  simp only [segmentFrom, PGSIZE]
  split_ifs <;> first | rfl | omega

/-- **The loop of `loaduvm`** from page `m` of the segment on, in an address space that reaches beyond the end
of the segment: it fails at a read, or stores the rest of the segment. -/
theorem loadLoop_spec (hs : Sound ld k pg) (hsz : sz ≤ KERNBASE) {ip : File} (hip : ip.size < 2 ^ 32)
    (n offset filesz : ℕ) (hend : n * PGSIZE + filesz ≤ sz) (fuel : ℕ) :
    ∀ (m : ℕ) (k' : Kmem) (c : ℕ → UInt8), k'.freelist = k.freelist → 0 < fuel →
      filesz / PGSIZE + 1 < m + fuel → (m * PGSIZE < filesz → offset + m * PGSIZE < 2 ^ 32) →
      Bytes k' pg sz c →
      ∃ ok k'', loadLoop pg (n * PGSIZE) ip offset filesz fuel k' (m * PGSIZE) = .ok (ok, k'') ∧
        (ok = true → Bytes k'' pg sz (segmentFrom ip n offset filesz m c)) ∧
        ∀ f, Outside pg sz f → k''.page f = k'.page f := by
  induction fuel with
  | zero => exact fun m k' c hk hpos => absurd hpos (lt_irrefl 0)
  | succ fuel ih =>
    intro m k' c hk hpos hfuel hoff hb
    rw [loadLoop]
    by_cases hlt : m * PGSIZE < filesz
    · have hin : (n + m) * PGSIZE < sz := by
        rw [Nat.add_mul]
        exact lt_of_lt_of_le (Nat.add_lt_add_left hlt _) hend
      have hnm : n + m < npages sz := lt_npages.mpr hin
      have hva : u32 (n * PGSIZE + m * PGSIZE) = (n + m) * PGSIZE := by
        rw [← Nat.add_mul]
        exact Nat.mod_eq_of_lt (lt_trans (lt_of_lt_of_le hin hsz) (by decide))
      have hmax := npages_le hsz
      have hoff' : u32 (offset + m * PGSIZE) = offset + m * PGSIZE := Nat.mod_eq_of_lt (hoff hlt)
      obtain ⟨f, he, hbytes⟩ := hb (n + m) hnm
      obtain ⟨t, ht⟩ := Option.isSome_iff_exists.mp (hasTable_of_entry he)
      have hpte : t.pte (ptx ((n + m) * PGSIZE)) = some ⟨f, ⟨true, true⟩⟩ := by
        rw [← entry_of_pde ht, he]
      rw [if_pos hlt, hva, ht, hoff']
      simp only [hpte, Option.map_some, Option.getD_some]
      set r := if filesz - m * PGSIZE < PGSIZE then filesz - m * PGSIZE else PGSIZE with hr
      have hrle : r ≤ PGSIZE := by
        rw [hr]
        split <;> omega
      unfold File.readFull
      by_cases hread : offset + m * PGSIZE + r ≤ ip.size
      · rw [if_pos hread]
        simp only
        rw [u32_next (show m + 1 < NPAGES by unfold UPAGES NPAGES at *; omega)]
        -- the page that this round stores, and the pages after it
        have hb₁ : Bytes (k'.setPage f (storeBytes (k'.page f) 0 (ip.read (offset + m * PGSIZE) r))) pg sz
            fun va => if va / PGSIZE = n + m then segmentFrom ip n offset filesz m c va else c va := by
          refine hb.setPage (hs.congr hk rfl) hsz he hnm (fun o ho => ?_) fun va hne => if_neg hne
          rw [if_pos (by unfold PGSIZE at *; omega)]
          unfold storeBytes segmentFrom
          simp only [File.read, length_map, length_range, Nat.zero_add, Nat.zero_le, true_and,
            Nat.sub_zero]
          by_cases hor : o < r
          · rw [if_pos hor, if_pos (by rw [hr] at hor; split at hor <;> (unfold PGSIZE at *; omega))]
            rw [getD_eq_getElem _ _ (by simpa using hor)]
            simp only [getElem_map, getElem_range]
            congr 1
            unfold PGSIZE
            omega
          · rw [if_neg hor, if_neg (by rw [hr] at hor; split at hor <;> (unfold PGSIZE at *; omega)),
              hbytes o ho]
        have hoff₁ : (m + 1) * PGSIZE < filesz → offset + (m + 1) * PGSIZE < 2 ^ 32 := by
          intro h
          rw [hr, if_neg (by unfold PGSIZE at *; omega)] at hread
          rw [Nat.succ_mul, ← Nat.add_assoc]
          exact lt_of_le_of_lt hread hip
        obtain ⟨ok, k'', heq, hbytes', hout⟩ := ih (m + 1)
          (k'.setPage f (storeBytes (k'.page f) 0 (ip.read (offset + m * PGSIZE) r))) _ hk
          (by unfold PGSIZE at *; omega) (by omega) hoff₁ hb₁
        refine ⟨ok, k'', heq, fun hok => ?_, fun g hg => ?_⟩
        · rw [segmentFrom_succ]
          exact hbytes' hok
        · rw [hout g hg, Kmem.setPage_page_of_ne]
          rintro rfl
          exact hg (n + m) hnm _ he rfl
      · rw [if_neg hread]
        exact ⟨false, k', rfl, fun h => (by cases h), fun _ _ => rfl⟩
    · rw [if_neg hlt]
      refine ⟨true, k', rfl, fun _ => ?_, fun _ _ => rfl⟩
      have : segmentFrom ip n offset filesz m c = c := by
        funext va
        unfold segmentFrom
        rw [if_neg (by unfold PGSIZE at *; omega)]
      rwa [this]

/-- **`loaduvm`** into an address space that reaches beyond the end of the segment. -/
theorem Filled.loaduvm (h : Filled ld F k pg sz c) {ip : File} (hip : ip.size < 2 ^ 32) {ph : Proghdr}
    (hoff : ph.off < 2 ^ 32) (halign : ph.vaddr % PGSIZE = 0) (hend : ph.vaddr + ph.filesz ≤ sz) :
    ∃ ok k', Pgdir.loaduvm k pg ph.vaddr ip ph.off ph.filesz = .ok (ok, k') ∧
      (ok = true → Filled ld F k' pg sz (Exec.imageByte ip [ph] c)) ∧ k'.freelist = k.freelist ∧
      ∀ f, Outside pg sz f → k'.page f = k.page f := by
  have hn : ph.vaddr / PGSIZE * PGSIZE = ph.vaddr := Nat.div_mul_cancel (Nat.dvd_of_mod_eq_zero halign)
  obtain ⟨ok, k', heq, hbytes, hout⟩ := loadLoop_spec h.sound h.sz_le hip (ph.vaddr / PGSIZE) ph.off ph.filesz
    (by rwa [hn]) (ph.filesz / PGSIZE + 2) 0 k c rfl (Nat.succ_pos _)
    (by rw [Nat.zero_add]; exact Nat.lt_succ_self _)
    (fun _ => by rw [Nat.zero_mul, Nat.add_zero]; exact hoff) h.bytes
  rw [hn, Nat.zero_mul] at heq
  have hcall : Pgdir.loaduvm k pg ph.vaddr ip ph.off ph.filesz = .ok (ok, k') := by
    unfold Pgdir.loaduvm
    rw [if_neg (not_not_intro halign), heq]
  have hfree : k'.freelist = k.freelist := (loaduvm_post ph.vaddr ip ph.off ph.filesz).of_ok hcall
  refine ⟨ok, k', hcall, fun hok => ⟨h.toLoaded.congr hfree, ?_⟩, hfree, hout⟩
  have hsame : segmentFrom ip (ph.vaddr / PGSIZE) ph.off ph.filesz 0 c = Exec.imageByte ip [ph] c := by
    funext va
    rw [Exec.imageByte_singleton, segmentFrom, Nat.add_zero, hn]
    rfl
  rw [← hsame]
  exact hbytes hok

/-- `allocuvm` from the size of the user part on: the pages that are added hold zeros. -/
theorem Filled.allocuvm (h : Filled ld F k pg sz c) (hz : ∀ va, npages sz * PGSIZE ≤ va → c va = 0)
    (newsz : ℕ) :
    ∃ r k' pg', Pgdir.allocuvm ld k pg sz newsz = .ok (r, k', pg') ∧ Held ld F k' pg' ∧
      (r ≠ 0 → r = max sz newsz ∧ Filled ld F k' pg' r c) ∧ ∀ f ∉ F, k'.page f = k.page f := by
  obtain ⟨r, k', pg', heq, hheld, hout, hgrown⟩ := h.toLoaded.allocuvm newsz
  refine ⟨r, k', pg', heq, hheld, fun hne => ?_, hout⟩
  obtain ⟨hr, hload, hg⟩ := hgrown hne
  refine ⟨hr, hload, fun j hj => ?_⟩
  have hju : j < UPAGES := lt_of_lt_of_le hj (npages_le hload.sz_le)
  by_cases hold : j < npages sz
  · -- a page of before has kept its frame, and that frame was not free
    obtain ⟨f, he, hbytes⟩ := h.bytes j hold
    refine ⟨f, by rw [hg.old j (by unfold UPAGES NPAGES at *; omega) (by omega), he], fun o ho => ?_⟩
    have hused := h.sound.used (.page j) f (by simp [frameOf, hju, he])
    rw [hg.page_eq f hused.2, hbytes o ho]
  · obtain ⟨f, he, hpage⟩ := hg.new j (by omega) hj
    refine ⟨f, he, fun o ho => ?_⟩
    rw [hpage, hz]
    unfold PGSIZE
    omega

/-- A new page directory has no user page. -/
theorem Setup.filled {k' : Kmem} {d : Pgdir} (h : Setup ld k k' d) (c : ℕ → UInt8) :
    Filled ld {f | f ∈ k.freelist} k' d 0 c where
  toLoaded := h.loaded
  bytes := fun j hj => absurd hj (by rw [show npages 0 = 0 from rfl]; exact Nat.not_lt_zero j)

end Pgdir

/-! ## The loop over the program headers -/

namespace Exec

open Pgdir

variable {ld : Linker} {F : Set ℕ} {k : Kmem} {pg : Pgdir} {sz : ℕ} {c : ℕ → UInt8}

/-- What the loading of a program leaves, from the size `sz` and the bytes `c` on: on success the segments of
`segs`, and in any case an address space that can be freed. -/
structure Loads (ld : Linker) (F : Set ℕ) (ip : File) (segs : List Proghdr) (sz : ℕ) (c : ℕ → UInt8) (k : Kmem)
    (r : Option ℕ × Kmem × Pgdir) : Prop where
  held : Held ld F r.2.1 r.2.2
  filled : ∀ sz', r.1 = some sz' → sz' = max sz (imageSize segs) ∧
    Filled ld F r.2.1 r.2.2 sz' (imageByte ip segs c) ∧
    ∀ va, npages sz' * PGSIZE ≤ va → imageByte ip segs c va = 0
  outside : ∀ f ∉ F, r.2.1.page f = k.page f

/-- The attempt fails. -/
theorem Loads.of_fail {ip : File} {segs : List Proghdr} {k' : Kmem} {pg' : Pgdir} (h : Held ld F k' pg')
    (hout : ∀ f ∉ F, k'.page f = k.page f) : Loads ld F ip segs sz c k (none, k', pg') :=
  ⟨h, fun sz' hsz' => (by cases hsz'), hout⟩

/-- The fields of a header that can be read are `uint`s. -/
theorem proghdr_lt {ip : File} {off : ℕ} {ph : Proghdr} (h : proghdr ip off = some ph) :
    ph.off < 2 ^ 32 ∧ ph.vaddr < 2 ^ 32 ∧ ph.memsz < 2 ^ 32 := by
  unfold proghdr at h
  split at h
  · have hfield : ∀ off, ip.field off 4 < 2 ^ 32 := fun off => leValue_lt 4 _
    rw [← Option.some.inj h]
    exact ⟨hfield _, hfield _, hfield _⟩
  · cases h

/-- **One program header.** -/
theorem loadSegment_spec (h : Filled ld F k pg sz c) (hz : ∀ va, npages sz * PGSIZE ≤ va → c va = 0)
    {ip : File} (hip : ip.size < 2 ^ 32) {off : ℕ} {ph : Proghdr} (hph : proghdr ip off = some ph) :
    ∃ r, loadSegment ld ip ph k pg sz = .ok r ∧ Loads ld F ip (loads [ph]) sz c k r := by
  obtain ⟨hoff, hvaddr, hmemsz⟩ := proghdr_lt hph
  unfold loadSegment
  by_cases htype : ph.type ≠ ELF_PROG_LOAD
  · -- not a segment to load
    rw [if_pos htype]
    refine ⟨_, rfl, h.toHeld, fun sz' hsz' => ?_, fun _ _ => rfl⟩
    rw [show loads [ph] = [] by simp [loads, htype], imageByte_nil, ← Option.some.inj hsz']
    exact ⟨(Nat.max_zero sz).symm, h, hz⟩
  · have hload : loads [ph] = [ph] := by simp [loads, not_not.mp htype]
    rw [if_neg htype]
    by_cases hmem : ph.memsz < ph.filesz
    · rw [if_pos hmem]
      exact ⟨_, rfl, .of_fail h.toHeld fun _ _ => rfl⟩
    rw [if_neg hmem]
    by_cases hwrap : u32 (ph.vaddr + ph.memsz) < ph.vaddr
    · rw [if_pos hwrap]
      exact ⟨_, rfl, .of_fail h.toHeld fun _ _ => rfl⟩
    rw [if_neg hwrap]
    -- no wrap-around: the end of the segment is where it seems to be
    have hend : u32 (ph.vaddr + ph.memsz) = ph.vaddr + ph.memsz := by
      unfold u32 at *
      omega
    obtain ⟨sz₁, k₁, pg₁, heq, hheld, hfill, hout⟩ := h.allocuvm hz (ph.vaddr + ph.memsz)
    rw [hend, heq]
    simp only [bind, Except.bind]
    by_cases h0 : sz₁ = 0
    · rw [if_pos h0]
      exact ⟨_, rfl, .of_fail hheld hout⟩
    rw [if_neg h0]
    obtain ⟨hmax, hfill⟩ := hfill h0
    by_cases halign : ph.vaddr % PGSIZE ≠ 0
    · rw [if_pos halign]
      exact ⟨_, rfl, .of_fail hheld hout⟩
    rw [if_neg halign]
    obtain ⟨ok, k₂, heq₂, hfill₂, hfree, hout₂⟩ := hfill.loaduvm hip hoff (not_not.mp halign) (by omega)
    rw [heq₂]
    have hkeep : ∀ f ∉ F, k₂.page f = k.page f := by
      intro f hf
      rw [hout₂ f fun j hj e he hef => hf ?_, hout f hf]
      rw [← hfill.frames_eq, ← hef]
      have hju : j < UPAGES := lt_of_lt_of_le hj (npages_le hfill.sz_le)
      exact .inr ⟨.page j, by simp [frameOf, hju, he]⟩
    cases ok with
    | false => exact ⟨_, rfl, .of_fail (hheld.congr hfree) hkeep⟩
    | true =>
      refine ⟨_, rfl, hheld.congr hfree, fun sz' hsz' => ?_, hkeep⟩
      rw [← Option.some.inj hsz', hload]
      refine ⟨by simp [hmax, imageSize], hfill₂ rfl, fun va hva => ?_⟩
      rw [imageByte_singleton, if_neg, hz va]
      · exact le_trans (Nat.mul_le_mul_right _ (npages_mono (by omega))) hva
      · rintro ⟨-, hlt⟩
        have : sz₁ ≤ npages sz₁ * PGSIZE := by
          unfold npages PGSIZE
          omega
        omega

theorem loads_cons (ph : Proghdr) (phs : List Proghdr) : loads (ph :: phs) = loads [ph] ++ loads phs := by
  unfold loads
  rw [← filter_append]
  rfl

theorem imageByte_append (ip : File) (segs segs' : List Proghdr) (c : ℕ → UInt8) :
    imageByte ip (segs ++ segs') c = imageByte ip segs' (imageByte ip segs c) := by
  induction segs generalizing c with
  | nil => rfl
  | cons ph segs ih => rw [cons_append, imageByte_cons, ih, ← imageByte_cons]

theorem imageSize_append (segs segs' : List Proghdr) :
    imageSize (segs ++ segs') = max (imageSize segs) (imageSize segs') := by
  induction segs with
  | nil => simp [imageSize]
  | cons ph segs ih =>
    show max _ (imageSize (segs ++ segs')) = max (max _ (imageSize segs)) _
    rw [ih, max_assoc]

/-- **The loop over the program headers**: by induction on their number, with the size and the bytes so far. -/
theorem loadProgram_spec {ip : File} (hip : ip.size < 2 ^ 32) (count : ℕ) :
    ∀ (off : ℕ) {k : Kmem} {pg : Pgdir} {sz : ℕ} {c : ℕ → UInt8}, Filled ld F k pg sz c →
      (∀ va, npages sz * PGSIZE ≤ va → c va = 0) →
      ∃ r, loadProgram ld ip count off k pg sz = .ok r ∧ Loads ld F ip (loads (headers ip count off)) sz c k r := by
  induction count with
  | zero =>
    intro off k pg sz c h hz
    refine ⟨_, rfl, h.toHeld, fun sz' hsz' => ?_, fun _ _ => rfl⟩
    rw [← Option.some.inj hsz']
    exact ⟨(Nat.max_zero sz).symm, h, hz⟩
  | succ count ih =>
    intro off k pg sz c h hz
    rw [loadProgram, headers]
    cases hph : proghdr ip off with
    | none => exact ⟨_, rfl, .of_fail h.toHeld fun _ _ => rfl⟩
    | some ph =>
      obtain ⟨⟨r, k₁, pg₁⟩, heq, hl⟩ := loadSegment_spec h hz hip hph
      simp only [heq, bind, Except.bind]
      cases r with
      | none => exact ⟨_, rfl, .of_fail hl.held hl.outside⟩
      | some sz₁ =>
        obtain ⟨hsz₁, hfill, hz₁⟩ := hl.filled sz₁ rfl
        obtain ⟨r, heq', hl'⟩ := ih (u32 (off + 32)) hfill hz₁
        refine ⟨r, heq', hl'.held, fun sz' hsz' => ?_, fun f hf => by rw [hl'.outside f hf, hl.outside f hf]⟩
        rw [loads_cons, imageByte_append, imageSize_append, ← max_assoc, ← hsz₁]
        exact hl'.filled sz' hsz'

/-- **Loading is safe for a file of any bytes**: the loop over the program headers does not panic, and when it
succeeds the user part of the new address space is as long as the `PT_LOAD` headers ask for, with the byte of the
last segment that covers an address, or zero. -/
theorem loading_safe {k k₁ : Kmem} {pg : Pgdir} (hk : k.Good ld) (hset : setupkvm ld k = .ok (some pg, k₁))
    (ip : File) (hip : ip.size < 2 ^ 32) :
    ∃ r, loadProgram ld ip (ip.field 44 2) (ip.field 28 4) k₁ pg 0 = .ok r ∧
      ∀ sz, r.1 = some sz →
        sz = imageSize (segments ip) ∧
        (∀ j < UPAGES, (r.2.2.entry j).isSome ↔ j * PGSIZE < pgroundup sz) ∧
        ∀ va < pgroundup sz, ∃ f, r.2.2.entry (va / PGSIZE) = some ⟨f, ⟨true, true⟩⟩ ∧
          r.2.1.page f (va % PGSIZE) = imageByte ip (segments ip) (fun _ => 0) va := by
  rcases setupkvm_spec hk with ⟨k', heq, -⟩ | ⟨k', d, heq, hsetup⟩
  · rw [heq] at hset
    cases hset
  · rw [heq] at hset
    cases hset
    obtain ⟨r, hload, hl⟩ := loadProgram_spec hip (ip.field 44 2) (ip.field 28 4)
      (hsetup.filled fun _ => 0) fun _ _ => rfl
    refine ⟨r, hload, fun sz hsz => ?_⟩
    obtain ⟨hmax, hfill, -⟩ := hl.filled sz hsz
    have hround : pgroundup sz = npages sz * PGSIZE := pgroundup_eq hfill.sz_le
    refine ⟨by rw [hmax, Nat.zero_max]; rfl, fun j hj => ?_, fun va hva => ?_⟩
    · rw [hfill.present j hj, hround]
      unfold PGSIZE
      omega
    · rw [hround] at hva
      obtain ⟨f, he, hbytes⟩ := hfill.bytes (va / PGSIZE) (by unfold PGSIZE at *; omega)
      refine ⟨f, he, ?_⟩
      rw [hbytes _ (Nat.mod_lt _ (by decide)), Nat.div_add_mod']
      rfl

/-- An executable with one segment of four bytes, of which two are in the file. -/
def loopProgram : File :=
  ⟨86, fun o => match o with
    | 0 => 0x7F | 1 => 0x45 | 2 => 0x4C | 3 => 0x46
    | 28 => 52 | 44 => 1
    | 52 => 1 | 56 => 84 | 68 => 2 | 72 => 4
    | 84 => 0xEB | 85 => 0xFE
    | _ => 0⟩

/-- Its segment is loaded into the first page. -/
theorem loadProgram_loopProgram {k k₁ : Kmem} {d : Pgdir} (hset : Setup ld k k₁ d) (havail : 2 ≤ k₁.avail) :
    ∃ k₂ pg₂, loadProgram ld loopProgram (loopProgram.field 44 2) (loopProgram.field 28 4) k₁ d 0 =
      .ok (some 4, k₂, pg₂) := by
  obtain ⟨k₂, pg₂, heq, hg, -⟩ := ProcMem.allocuvm_first hset (show 0 < 4 by decide) (by decide)
    (by rw [show npages 4 = 1 by decide]; exact havail)
  obtain ⟨f, he, -⟩ := hg.new 0 le_rfl (by decide)
  obtain ⟨t, ht⟩ := Option.isSome_iff_exists.mp (hasTable_of_entry he)
  have hload : ∃ k₃, loaduvm k₂ pg₂ 0 loopProgram 84 2 = .ok (true, k₃) := by
    unfold loaduvm
    rw [if_neg (by decide), loadLoop, if_pos (by decide), show u32 (0 + 0) = 0 * PGSIZE by decide, ht]
    exact ⟨_, rfl⟩
  obtain ⟨k₃, hload⟩ := hload
  refine ⟨k₃, pg₂, ?_⟩
  rw [show loopProgram.field 44 2 = 0 + 1 by decide, show loopProgram.field 28 4 = 52 by decide, loadProgram,
    show proghdr loopProgram 52 = some ⟨1, 84, 0, 2, 4⟩ from rfl]
  simp only [loadSegment]
  rw [if_neg (by decide), if_neg (by decide), if_neg (by decide), show u32 (0 + 4) = 4 by decide, heq]
  simp only [bind, Except.bind, hload]
  rfl

/-- What is loaded of this program: its two bytes, and then zeros to the end of the page. -/
theorem loading_safe_loop : ∃ k₁ pg k₂ pg₂, setupkvm ProcMem.bootLinker ProcMem.bootKmem = .ok (some pg, k₁) ∧
    loadProgram ProcMem.bootLinker loopProgram (loopProgram.field 44 2) (loopProgram.field 28 4) k₁ pg 0 =
      .ok (some 4, k₂, pg₂) ∧
    (∀ j < UPAGES, (pg₂.entry j).isSome ↔ j * PGSIZE < pgroundup 4) ∧
    ∀ va < pgroundup 4, ∃ f, pg₂.entry (va / PGSIZE) = some ⟨f, ⟨true, true⟩⟩ ∧
      k₂.page f (va % PGSIZE) = imageByte loopProgram (segments loopProgram) (fun _ => 0) va := by
  have havail := ProcMem.bootKmem_avail
  rcases setupkvm_spec ProcMem.bootKmem_good with ⟨-, -, -, -, -, hlt⟩ | ⟨k₁, pg, heq, hset⟩
  · omega
  have h65 := hset.avail_eq
  obtain ⟨k₂, pg₂, hload⟩ := loadProgram_loopProgram hset (by omega)
  obtain ⟨r, hr, hsafe⟩ := loading_safe ProcMem.bootKmem_good heq loopProgram (by decide)
  rw [hload] at hr
  cases hr
  exact ⟨k₁, pg, k₂, pg₂, heq, hload, (hsafe 4 rfl).2⟩

end Exec
