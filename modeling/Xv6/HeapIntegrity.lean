/-
# Integrity of the user heap

Any sequence of `malloc` and `free`, where `free` is called once for a block that `malloc` has
returned, and `sbrk` fails or returns memory above what it has returned before.  The blocks that
are free and those that are in use are the memory obtained from `sbrk`, cut into pieces
(`Chunk.Recut`); from that, and from the order of the list of free blocks, all the rest is read
off: no two blocks overlap, every unit is in exactly one block, and the calls return.
-/
import Xv6.Umalloc

open Function Circular List

namespace Umalloc

/-! ## The heap in use -/

/-- A block that `malloc` has returned and that has not been freed: the pointer to it, and the
number of bytes asked for. -/
structure Live where
  ap : ℕ
  nbytes : ℕ

/-- The heap and the blocks in use. -/
structure State where
  heap : Heap
  live : List Live

/-- The headers of the blocks in use. -/
def headers (live : List Live) : List ℕ := live.map fun b => b.ap - HEADER

/-- With enough fuel, the call returns `x`. -/
def Returns {α : Type} (call : ℕ → Option α) (x : α) : Prop :=
  ∃ enough, ∀ fuel, enough ≤ fuel → call fuel = some x

theorem Returns.eq {α : Type} {call : ℕ → Option α} {x y : α} (hx : Returns call x)
    (hy : Returns call y) : x = y := by
  obtain ⟨m, hm⟩ := hx
  obtain ⟨n, hn⟩ := hy
  exact Option.some.inj ((hm _ (le_max_left m n)).symm.trans (hn _ (le_max_right m n)))

/-- The units that a request for `nbytes` bytes needs. -/
def need (nbytes : ℕ) : ℕ := (nbytes + HEADER - 1) / HEADER + 1

/-- `sbrk` fails, or returns memory in the address space above the variable `base` and above all
that it has returned before. -/
def Fresh (base : ℕ) (regions : List Chunk) (sbrk : ℕ → Option ℕ) : Prop :=
  ∀ n p, sbrk n = some p →
    base + HEADER ≤ p ∧ (∀ r ∈ regions, r.stop HEADER ≤ p) ∧ p + n < 2 ^ 32

/-- The states of the heap, from the start of the program on. -/
inductive Reachable (base : ℕ) : State → Prop
  | start (mem : ℕ → Header) : Reachable base ⟨⟨mem, 0, []⟩, []⟩
  | failed {s : State} {sbrk : ℕ → Option ℕ} {nbytes : ℕ} {h' : Heap} (h : Reachable base s)
      (hneed : need nbytes < 2 ^ 28) (hsbrk : Fresh base s.heap.regions sbrk)
      (hcall : Returns (fun fuel => s.heap.malloc base fuel sbrk nbytes) (0, h')) :
      Reachable base ⟨h', s.live⟩
  | malloc {s : State} {sbrk : ℕ → Option ℕ} {nbytes ap : ℕ} {h' : Heap} (h : Reachable base s)
      (hneed : need nbytes < 2 ^ 28) (hsbrk : Fresh base s.heap.regions sbrk)
      (hcall : Returns (fun fuel => s.heap.malloc base fuel sbrk nbytes) (ap, h')) (hap : ap ≠ 0) :
      Reachable base ⟨h', ⟨ap, nbytes⟩ :: s.live⟩
  | free {heap h' : Heap} {l₁ l₂ : List Live} {b : Live} (h : Reachable base ⟨heap, l₁ ++ b :: l₂⟩)
      (hcall : Returns (fun fuel => heap.free fuel b.ap) h') : Reachable base ⟨h', l₁ ++ l₂⟩

/-! ## The invariant -/

/-- **The invariant**: the free blocks are a list, and together with the blocks in use they are the
memory from `sbrk`, cut into pieces. -/
structure Inv (base : ℕ) (h : Heap) (live : List Live) (fl : List ℕ) : Prop where
  list : Heap.FreeList base h fl
  recut : Chunk.Recut HEADER (h.chunks (base :: fl ++ headers live)) h.regions
  room : ∀ b ∈ live, b.nbytes + HEADER ≤ HEADER * h.size (b.ap - HEADER)
  apart : h.regions.Pairwise (Chunk.Apart HEADER)
  above : ∀ r ∈ h.regions, base + HEADER ≤ r.start ∧ r.stop HEADER < 2 ^ 32

namespace Inv

variable {base : ℕ} {h : Heap} {live : List Live} {fl : List ℕ}

section

variable (hinv : Inv base h live fl)

include hinv

theorem size_pos {a : ℕ} (ha : a ∈ fl ++ headers live) : 0 < h.size a := by
  rcases mem_append.mp ha with ha | ha
  · exact hinv.list.size_pos a ha
  · obtain ⟨b, hb, rfl⟩ := mem_map.mp ha
    have := hinv.room b hb
    unfold HEADER at *
    omega

/-- `base` is no memory from `sbrk`. -/
theorem recut' :
    Chunk.Recut HEADER (h.chunks (fl ++ headers live)) h.regions := by
  have hempty := Chunk.Recut.empty (u := HEADER) base (h.chunks (fl ++ headers live))
  rw [← hinv.list.base_size] at hempty
  exact hempty.symm.trans hinv.recut

/-- The blocks do not overlap. -/
theorem chunks_apart :
    (h.chunks (fl ++ headers live)).Pairwise (Chunk.Apart HEADER) := by
  refine hinv.recut'.pairwise_apart hinv.apart fun c hc => ?_
  obtain ⟨a, ha, rfl⟩ := mem_map.mp hc
  exact Nat.mul_pos (by decide) (hinv.size_pos ha)

/-- Every block is in the memory from `sbrk`. -/
theorem inside {a : ℕ} (ha : a ∈ fl ++ headers live) :
    base + HEADER ≤ a ∧ ∃ r ∈ h.regions, a + HEADER * h.size a ≤ r.stop HEADER := by
  have hpos := hinv.size_pos ha
  have hc : (⟨a, h.size a⟩ : Chunk) ∈ h.chunks (fl ++ headers live) := mem_map.mpr ⟨a, ha, rfl⟩
  constructor
  · obtain ⟨r, hr, hle, -⟩ := hinv.recut'.exists_byte (x := a) hc
      ⟨le_rfl, by unfold Chunk.stop HEADER; dsimp only; omega⟩
    exact (hinv.above r hr).1.trans hle
  · obtain ⟨r, hr, -, hlt⟩ := hinv.recut'.exists_byte (x := a + HEADER * h.size a - 1) hc
      ⟨by unfold HEADER; dsimp only; omega, by unfold Chunk.stop HEADER; dsimp only; omega⟩
    exact ⟨r, hr, by unfold HEADER at *; omega⟩

theorem in_space {a : ℕ} (ha : a ∈ fl ++ headers live) :
    a + HEADER * h.size a < 2 ^ 32 := by
  obtain ⟨-, r, hr, hle⟩ := hinv.inside ha
  exact hle.trans_lt (hinv.above r hr).2

theorem base_lt {a : ℕ} (ha : a ∈ fl ++ headers live) : base < a := by
  have := (hinv.inside ha).1
  unfold HEADER at this
  omega

theorem freep_ne_zero (hbase : 0 < base) : h.freep ≠ 0 := by
  rcases mem_cons.mp hinv.list.freep_mem with heq | hmem
  · omega
  · have := hinv.list.base_lt hmem
    omega

/-- No two blocks have the same address. -/
theorem nodup : (fl ++ headers live).Nodup := by
  refine List.Pairwise.imp_of_mem (fun {a b} ha hb hab => ?_) (pairwise_map.mp hinv.chunks_apart)
  have hpos := hinv.size_pos ha
  have hpos' := hinv.size_pos hb
  rintro rfl
  rcases hab with hab | hab <;>
  · unfold Chunk.stop HEADER at hab
    dsimp only at hab
    omega

/-- A free block and a block in use do not overlap. -/
theorem free_apart {a b : ℕ} (ha : a ∈ fl) (hb : b ∈ headers live) :
    Chunk.Apart HEADER ⟨a, h.size a⟩ ⟨b, h.size b⟩ := by
  have happ := hinv.chunks_apart
  rw [Heap.chunks_append] at happ
  exact (pairwise_append.mp happ).2.2 _ (mem_map.mpr ⟨a, ha, rfl⟩) _
    (mem_map.mpr ⟨b, hb, rfl⟩)

/-- A block in use is not in the list. -/
theorem headers_notMem {a : ℕ} (ha : a ∈ headers live) :
    a ∉ base :: fl := by
  intro hmem
  rcases mem_cons.mp hmem with rfl | hmem
  · exact absurd (hinv.base_lt (mem_append_right _ ha)) (lt_irrefl _)
  · exact (nodup_append.mp hinv.nodup).2.2 a hmem a ha rfl

end

/-! ## Steps -/

theorem headers_append (l₁ l₂ : List Live) : headers (l₁ ++ l₂) = headers l₁ ++ headers l₂ :=
  map_append

/-- **`free`** of a block in use. -/
theorem free {l₁ l₂ : List Live} {b : Live} (hinv : Inv base h (l₁ ++ b :: l₂) fl) :
    ∃ h' fl', Returns (fun fuel => h.free fuel b.ap) h' ∧ Inv base h' (l₁ ++ l₂) fl' ∧
      ∃ a ∈ fl', h.size (b.ap - HEADER) ≤ h'.size a := by
  have hsplit : headers (l₁ ++ b :: l₂) = headers l₁ ++ (b.ap - HEADER) :: headers l₂ :=
    headers_append l₁ (b :: l₂)
  have hbmem : b.ap - HEADER ∈ headers (l₁ ++ b :: l₂) := by
    rw [hsplit]
    simp
  have hothers : ∀ a ∈ headers (l₁ ++ l₂), a ∈ headers (l₁ ++ b :: l₂) ∧ a ≠ b.ap - HEADER := by
    intro a ha
    have hnodup := (nodup_append.mp hinv.nodup).2.1
    rw [hsplit, perm_middle.nodup_iff] at hnodup
    rw [headers_append] at ha
    refine ⟨?_, fun heq => (nodup_cons.mp hnodup).1 (heq ▸ ha)⟩
    rw [hsplit]
    rcases mem_append.mp ha with ha | ha <;> simp [ha]
  have hbeside : Heap.Beside base h fl (b.ap - HEADER) :=
    ⟨hinv.base_lt (mem_append_right _ hbmem), hinv.size_pos (mem_append_right _ hbmem),
      fun a ha => hinv.free_apart ha hbmem⟩
  have hspace : h.InSpace ((b.ap - HEADER) :: fl) := by
    intro a ha
    rcases mem_cons.mp ha with rfl | ha
    · exact hinv.in_space (mem_append_right _ hbmem)
    · exact hinv.in_space (mem_append_left _ ha)
  obtain ⟨h', fl', hfree, hjoined⟩ := Heap.free_joined hinv.list hbeside hspace rfl
  have hsize : ∀ a ∈ headers (l₁ ++ l₂), h'.size a = h.size a := fun a ha =>
    hjoined.frame a (hinv.headers_notMem (hothers a ha).1) (hothers a ha).2
  refine ⟨h', fl', ⟨_, hfree⟩, ⟨hjoined.list, ?_, ?_, ?_, ?_⟩, hjoined.large⟩
  · intro w hw
    have hjoin := hjoined.recut w hw
    have hrecut := hinv.recut w hw
    rw [Heap.chunks_append, Heap.chunks_congr hsize, headers_append, Heap.chunks_append,
      hjoined.regions, ← hrecut, hsplit, Heap.chunks_append, Heap.chunks_append,
      Heap.chunks_cons h (b.ap - HEADER)]
    simp only [Chunk.weigh_append, Chunk.weigh_cons] at hjoin ⊢
    omega
  · intro c hc
    rw [hsize _ (mem_map.mpr ⟨c, hc, rfl⟩)]
    refine hinv.room c ?_
    rcases mem_append.mp hc with hc | hc <;> simp [hc]
  · rw [hjoined.regions]
    exact hinv.apart
  · rw [hjoined.regions]
    exact hinv.above

variable (hinv : Inv base h live fl)

include hinv

/-- **A block is taken** from the list. -/
theorem allocate {nunits prevp nbytes : ℕ} (hprev : prevp ∈ base :: fl)
    (hroom : nbytes + HEADER ≤ HEADER * nunits) (hsize : nunits ≤ h.size (h.ptr prevp)) :
    ∃ ap h' fl', h.allocate nunits prevp (h.ptr prevp) = (ap, h') ∧ ap ≠ 0 ∧
      Inv base h' (⟨ap, nbytes⟩ :: live) fl' := by
  have hpos : 0 < nunits := by
    unfold HEADER at hroom
    omega
  obtain ⟨q, h', fl', halloc, htaken, hpmem, hpq, hend⟩ := Heap.allocate_taken hinv.list
    (fun a ha => hinv.in_space (mem_append_left _ ha)) hprev hpos hsize
  have hother : ∀ a ∈ headers live, h'.size a = h.size a := by
    intro a ha
    refine htaken.frame a (hinv.headers_notMem ha) ?_
    rintro rfl
    have hpos' := hinv.size_pos (mem_append_right _ ha)
    rcases hinv.free_apart hpmem ha with hap | hap <;>
    · unfold Chunk.stop HEADER at *
      dsimp only at hap
      omega
  have hnew : headers (⟨q + HEADER, nbytes⟩ :: live) = q :: headers live := rfl
  refine ⟨q + HEADER, h', fl', halloc, Nat.succ_ne_zero _, htaken.list, ?_, ?_, ?_, ?_⟩
  · intro w hw
    have htake := htaken.recut w hw
    have hrecut := hinv.recut w hw
    rw [hnew, Heap.chunks_append, Heap.chunks_cons h' q, Heap.chunks_congr hother, htaken.size_eq,
      htaken.regions, ← hrecut, Heap.chunks_append]
    simp only [Chunk.weigh_append, Chunk.weigh_cons] at htake ⊢
    omega
  · intro b hb
    rcases mem_cons.mp hb with rfl | hb
    · show nbytes + HEADER ≤ HEADER * h'.size q
      rw [htaken.size_eq]
      exact hroom
    · rw [hother _ (mem_map.mpr ⟨b, hb, rfl⟩)]
      exact hinv.room b hb
  · rw [htaken.regions]
    exact hinv.apart
  · rw [htaken.regions]
    exact hinv.above

/-- New memory, as a block in use. -/
theorem obtain_region {p nu : ℕ} (hnu : 0 < nu) (hp : base + HEADER ≤ p)
    (hfresh : ∀ r ∈ h.regions, r.stop HEADER ≤ p) (hspace : p + HEADER * nu < 2 ^ 32) :
    Inv base { h.set p ⟨h.ptr p, nu⟩ with regions := ⟨p, nu⟩ :: h.regions }
      (⟨p + HEADER, 0⟩ :: live) fl := by
  have hbase : base ≠ p := by
    unfold HEADER at hp
    omega
  have hne : ∀ a ∈ fl ++ headers live, a ≠ p := by
    intro a ha
    obtain ⟨-, r, hr, hle⟩ := hinv.inside ha
    have := hfresh r hr
    have := hinv.size_pos ha
    unfold HEADER at *
    omega
  have hsize : ∀ a, a ≠ p → (h.set p ⟨h.ptr p, nu⟩).size a = h.size a := by
    intro a ha
    rw [Heap.set_size, update_of_ne ha]
  have hsizep : (h.set p ⟨h.ptr p, nu⟩).size p = nu := by
    rw [Heap.set_size, update_self]
  have hring : ∀ a ∈ base :: fl, a ≠ p := by
    intro a ha
    rcases mem_cons.mp ha with rfl | ha
    · exact hbase
    · exact hne a (mem_append_left _ ha)
  have hptr : (h.set p ⟨h.ptr p, nu⟩).ptr = h.ptr := by
    rw [Heap.set_ptr, update_eq_self]
  refine ⟨⟨?_, ?_, ?_, ?_, hinv.list.freep_mem⟩, ?_, ?_, ?_, ?_⟩
  · show Circle (h.set p ⟨h.ptr p, nu⟩).ptr (base :: fl)
    rw [hptr]
    exact hinv.list.circle
  · refine List.Pairwise.imp_of_mem (fun {a b} ha _ hab => ?_) hinv.list.gaps
    show a + HEADER * (h.set p ⟨h.ptr p, nu⟩).size a < b
    rwa [hsize a (hring a ha)]
  · exact (hsize base hbase).trans hinv.list.base_size
  · intro a ha
    exact (hinv.list.size_pos a ha).trans_eq (hsize a (hne a (mem_append_left _ ha))).symm
  · intro w hw
    have hrecut := hinv.recut w hw
    have hring' : (h.set p ⟨h.ptr p, nu⟩).chunks (base :: fl) = h.chunks (base :: fl) :=
      Heap.chunks_congr fun a ha => hsize a (hring a ha)
    have hlive : (h.set p ⟨h.ptr p, nu⟩).chunks (headers live) = h.chunks (headers live) :=
      Heap.chunks_congr fun a ha => hsize a (hne a (mem_append_right _ ha))
    show Chunk.weigh w ((h.set p ⟨h.ptr p, nu⟩).chunks (base :: fl ++ p :: headers live)) =
      Chunk.weigh w (⟨p, nu⟩ :: h.regions)
    rw [Heap.chunks_append, Heap.chunks_cons _ p, hring', hlive, hsizep, Chunk.weigh_cons, ← hrecut,
      Heap.chunks_append]
    simp only [Chunk.weigh_append, Chunk.weigh_cons]
    omega
  · intro b hb
    rcases mem_cons.mp hb with rfl | hb
    · show 0 + HEADER ≤ HEADER * (h.set p ⟨h.ptr p, nu⟩).size p
      rw [hsizep]
      unfold HEADER
      omega
    · exact (hinv.room b hb).trans_eq (congrArg _ (hsize _ (hne _ (mem_append_right _
        (mem_map.mpr ⟨b, hb, rfl⟩)))).symm)
  · exact pairwise_cons.mpr ⟨fun r hr => Or.inr (hfresh r hr), hinv.apart⟩
  · intro r hr
    rcases mem_cons.mp hr with rfl | hr
    · exact ⟨hp, hspace⟩
    · exact hinv.above r hr

/-- **`morecore`** fails, or puts a block into the list that is large enough. -/
theorem morecore {sbrk : ℕ → Option ℕ} {nu : ℕ} (hnu : nu < 2 ^ 28)
    (hsbrk : Fresh base h.regions sbrk) :
    Returns (fun fuel => h.morecore fuel sbrk nu) (0, h) ∨
    ∃ h' fl', Returns (fun fuel => h.morecore fuel sbrk nu) (h'.freep, h') ∧
      Inv base h' live fl' ∧ ∃ a ∈ fl', nu ≤ h'.size a := by
  generalize hmax : (if nu < 4096 then 4096 else nu) = m
  have hm : nu ≤ m ∧ 0 < m ∧ m < 2 ^ 28 := by
    split at hmax <;> omega
  have hbytes : u32 (m * HEADER) = HEADER * m := by
    unfold u32 HEADER
    omega
  cases hcall : sbrk (HEADER * m) with
  | none =>
    refine Or.inl ⟨0, fun fuel _ => ?_⟩
    unfold Heap.morecore
    simp only [hmax, hbytes, hcall]
  | some p =>
    obtain ⟨hp, hfresh, hspace⟩ := hsbrk _ _ hcall
    have hplus : plus p 1 = p + HEADER := Heap.plus_eq (by unfold HEADER at *; omega)
    have hregion : Inv base _ ([] ++ _ :: live) fl := hinv.obtain_region hm.2.1 hp hfresh hspace
    obtain ⟨h', fl', ⟨enough, hfree⟩, hinv', a, ha, hlarge⟩ := hregion.free
    refine Or.inr ⟨h', fl', ⟨enough, fun fuel hfuel => ?_⟩, hinv', a, ha, ?_⟩
    · unfold Heap.morecore
      simp only [hmax, hbytes, hcall, hplus]
      exact congrArg (Option.map fun h => (h.freep, h)) (hfree fuel hfuel)
    · have hsize : (h.set p ⟨h.ptr p, m⟩).size p = m := by
        rw [Heap.set_size, update_self]
      exact (hm.1.trans_eq hsize.symm).trans hlarge

end Inv

/-! ## The loop of `malloc` -/

section Loop

variable {base : ℕ} {h : Heap} {live : List Live} {fl : List ℕ} {nunits : ℕ}

variable (nunits) in
/-- The loop follows the list up to `freep`: it takes a block that is large enough, or calls
`morecore`. -/
theorem mallocLoop_walk (sbrk : ℕ → Option ℕ) {l as : List ℕ} {prevp : ℕ}
    (hlinked : Linked h.ptr (prevp :: (as ++ [h.freep]))) (hfreep : h.freep ∉ as)
    (hmem : ∀ x ∈ prevp :: as, x ∈ l) :
    (∃ q ∈ l, nunits ≤ h.size (h.ptr q) ∧ ∀ fuel rounds, as.length < rounds →
      h.mallocLoop fuel sbrk nunits rounds prevp (h.ptr prevp) =
        some (h.allocate nunits q (h.ptr q))) ∨
    (∀ x ∈ as ++ [h.freep], h.size x < nunits) ∧ ∀ fuel rounds,
      h.mallocLoop fuel sbrk nunits (as.length + 1 + rounds) prevp (h.ptr prevp) =
        (h.morecore fuel sbrk nunits).bind fun r =>
          if r.1 = 0 then some (0, r.2)
          else r.2.mallocLoop fuel sbrk nunits rounds r.1 (r.2.ptr r.1) := by
  induction as generalizing prevp with
  | nil =>
    have hnext : h.ptr prevp = h.freep := Linked.next_eq hlinked
    by_cases hsize : nunits ≤ h.size (h.ptr prevp)
    · refine Or.inl ⟨prevp, hmem prevp mem_cons_self, hsize, fun fuel rounds hrounds => ?_⟩
      obtain ⟨k, rfl⟩ := Nat.exists_eq_add_one_of_ne_zero (Nat.ne_zero_of_lt hrounds)
      rw [Heap.mallocLoop, if_pos hsize]
    · refine Or.inr ⟨fun x hx => ?_, fun fuel rounds => ?_⟩
      · rw [mem_singleton.mp hx, ← hnext]
        exact not_le.mp hsize
      · rw [length_nil, Nat.zero_add, Nat.add_comm, Heap.mallocLoop, if_neg hsize, if_pos hnext]
  | cons a as ih =>
    have hnext : h.ptr prevp = a := Linked.next_eq hlinked
    by_cases hsize : nunits ≤ h.size (h.ptr prevp)
    · refine Or.inl ⟨prevp, hmem prevp mem_cons_self, hsize, fun fuel rounds hrounds => ?_⟩
      obtain ⟨k, rfl⟩ := Nat.exists_eq_add_one_of_ne_zero (Nat.ne_zero_of_lt hrounds)
      rw [Heap.mallocLoop, if_pos hsize]
    · have hne : h.ptr prevp ≠ h.freep := by
        rw [hnext]
        exact fun heq => hfreep (heq ▸ mem_cons_self)
      have hstep : ∀ fuel rounds, h.mallocLoop fuel sbrk nunits (rounds + 1) prevp (h.ptr prevp) =
          h.mallocLoop fuel sbrk nunits rounds a (h.ptr a) := by
        intro fuel rounds
        rw [Heap.mallocLoop, if_neg hsize, if_neg hne, hnext]
      rcases ih (List.IsChain.tail hlinked) (fun hmem' => hfreep (mem_cons_of_mem _ hmem'))
        (fun x hx => hmem x (mem_cons_of_mem _ hx)) with ⟨q, hq, hqsize, hcall⟩ | ⟨hsmall, hcall⟩
      · refine Or.inl ⟨q, hq, hqsize, fun fuel rounds hrounds => ?_⟩
        obtain ⟨k, rfl⟩ := Nat.exists_eq_add_one_of_ne_zero (Nat.ne_zero_of_lt hrounds)
        rw [hstep]
        exact hcall fuel k (Nat.lt_of_succ_lt_succ hrounds)
      · refine Or.inr ⟨fun x hx => ?_, fun fuel rounds => ?_⟩
        · rcases mem_cons.mp hx with rfl | hx
          · rw [← hnext]
            exact not_le.mp hsize
          · exact hsmall x hx
        · have hlen : (a :: as).length + 1 + rounds = (as.length + 1 + rounds) + 1 := by
            rw [length_cons]
            omega
          rw [hlen, hstep, hcall]

/-- The loop once around the list, from `freep` on. -/
theorem Inv.mallocLoop (hinv : Inv base h live fl) (sbrk : ℕ → Option ℕ) (nunits : ℕ) :
    ∃ n, (∃ q ∈ base :: fl, nunits ≤ h.size (h.ptr q) ∧ ∀ fuel rounds, n < rounds →
      h.mallocLoop fuel sbrk nunits rounds h.freep (h.ptr h.freep) =
        some (h.allocate nunits q (h.ptr q))) ∨
    (∀ x ∈ base :: fl, h.size x < nunits) ∧ ∀ fuel rounds,
      h.mallocLoop fuel sbrk nunits (n + 1 + rounds) h.freep (h.ptr h.freep) =
        (h.morecore fuel sbrk nunits).bind fun r =>
          if r.1 = 0 then some (0, r.2)
          else r.2.mallocLoop fuel sbrk nunits rounds r.1 (r.2.ptr r.1) := by
  obtain ⟨xs, ys, hsplit⟩ := append_of_mem hinv.list.freep_mem
  have hcircle := hinv.list.circle
  have hnodup := hinv.list.nodup
  rw [hsplit] at hcircle hnodup
  have hperm : (xs ++ h.freep :: ys).Perm (h.freep :: (ys ++ xs)) := perm_append_comm
  have hfreep : h.freep ∉ ys ++ xs := (nodup_cons.mp (hperm.nodup_iff.mp hnodup)).1
  refine ⟨(ys ++ xs).length, ?_⟩
  rcases mallocLoop_walk nunits sbrk (l := base :: fl) hcircle.rotate hfreep
    (fun x hx => by rw [hsplit]; exact hperm.mem_iff.mpr hx) with hfound | ⟨hsmall, hcall⟩
  · exact Or.inl hfound
  · refine Or.inr ⟨fun x hx => hsmall x ?_, hcall⟩
    rw [hsplit] at hx
    exact (hperm.trans (perm_append_singleton _ _).symm).mem_iff.mp hx

/-- **`malloc`** on a heap with a list of free blocks returns a block, or `0`. -/
theorem Inv.mallocLoop_returns (hinv : Inv base h live fl) (hbase : 0 < base) {sbrk : ℕ → Option ℕ}
    {nbytes : ℕ} (hroom : nbytes + HEADER ≤ HEADER * nunits) (hneed : nunits < 2 ^ 28)
    (hsbrk : Fresh base h.regions sbrk) :
    ∃ ap h' fl', Returns (fun fuel => h.mallocLoop fuel sbrk nunits fuel h.freep (h.ptr h.freep))
      (ap, h') ∧ (ap = 0 ∧ Inv base h' live fl' ∨ ap ≠ 0 ∧ Inv base h' (⟨ap, nbytes⟩ :: live) fl') := by
  obtain ⟨n, ⟨q, hq, hsize, hcall⟩ | ⟨-, hcall⟩⟩ := hinv.mallocLoop sbrk nunits
  · obtain ⟨ap, h', fl', halloc, hap, hinv'⟩ := hinv.allocate hq hroom hsize
    exact ⟨ap, h', fl', ⟨n + 1, fun fuel hfuel =>
      (hcall fuel fuel hfuel).trans (congrArg some halloc)⟩, Or.inr ⟨hap, hinv'⟩⟩
  · rcases hinv.morecore hneed hsbrk with ⟨m, hmore⟩ | ⟨h₁, fl₁, ⟨m, hmore⟩, hinv₁, a, ha, hlarge⟩
    · refine ⟨0, h, fl, ⟨max m (n + 1), fun fuel hfuel => ?_⟩, Or.inl ⟨rfl, hinv⟩⟩
      obtain ⟨k, rfl⟩ := Nat.exists_eq_add_of_le ((le_max_right m (n + 1)).trans hfuel)
      have hfail : h.morecore (n + 1 + k) sbrk nunits = some (0, h) :=
        hmore _ ((le_max_left m (n + 1)).trans hfuel)
      refine (hcall _ k).trans ?_
      rw [hfail]
      rfl
    · -- the block from `morecore` is found when the list is followed once more
      obtain ⟨n₁, ⟨q, hq, hsize, hcall₁⟩ | ⟨hsmall, -⟩⟩ := hinv₁.mallocLoop sbrk nunits
      · obtain ⟨ap, h', fl', halloc, hap, hinv'⟩ := hinv₁.allocate hq hroom hsize
        refine ⟨ap, h', fl', ⟨max m (n + 1 + (n₁ + 1)), fun fuel hfuel => ?_⟩, Or.inr ⟨hap, hinv'⟩⟩
        have hle := (le_max_right m (n + 1 + (n₁ + 1))).trans hfuel
        obtain ⟨k, rfl⟩ := Nat.exists_eq_add_of_le ((Nat.le_add_right _ _).trans hle)
        have hmore' : h.morecore (n + 1 + k) sbrk nunits = some (h₁.freep, h₁) :=
          hmore _ ((le_max_left m _).trans hfuel)
        refine (hcall _ k).trans ?_
        rw [hmore', Option.bind_some, if_neg (hinv₁.freep_ne_zero hbase), hcall₁ _ k (by omega), halloc]
      · exact absurd hlarge (not_le.mpr (hsmall a (mem_cons_of_mem _ ha)))

end Loop

/-! ## Runs -/

/-- The heap before the first call, or with a list of free blocks. -/
def Ok (base : ℕ) (s : State) : Prop :=
  (s.heap.freep = 0 ∧ s.heap.regions = [] ∧ s.live = []) ∨ ∃ fl, Inv base s.heap s.live fl

section Runs

variable {base : ℕ} {s : State}

/-- The list that `malloc` starts with. -/
theorem Ok.start (hbase : 0 < base) (hs : Ok base s) :
    ∃ fl, Inv base (s.heap.start base) s.live fl ∧
      (s.heap.start base).regions = s.heap.regions := by
  rcases hs with ⟨hfreep, hregions, hlive⟩ | ⟨fl, hinv⟩
  · unfold Heap.start
    rw [if_pos hfreep]
    have hsize : (s.heap.set base ⟨base, 0⟩).size base = 0 := by
      rw [Heap.set_size, update_self]
    have hptr : (s.heap.set base ⟨base, 0⟩).ptr base = base := by
      rw [Heap.set_ptr, update_self]
    refine ⟨[], ⟨⟨?_, pairwise_singleton _ _, hsize, nofun, mem_singleton_self _⟩, ?_, ?_, ?_,
      ?_⟩, rfl⟩
    · exact isChain_cons_cons.mpr ⟨hptr, isChain_singleton _⟩
    · rw [hlive]
      show Chunk.Recut HEADER [⟨base, (s.heap.set base ⟨base, 0⟩).size base⟩] s.heap.regions
      rw [hsize, hregions]
      exact Chunk.Recut.empty base []
    · rw [hlive]
      exact nofun
    · show s.heap.regions.Pairwise _
      rw [hregions]
      exact List.Pairwise.nil
    · show ∀ r ∈ s.heap.regions, _
      rw [hregions]
      exact nofun
  · unfold Heap.start
    rw [if_neg (hinv.freep_ne_zero hbase)]
    exact ⟨fl, hinv, rfl⟩

/-- A request has room for its bytes behind the header. -/
theorem room_units {nbytes : ℕ} (hneed : need nbytes < 2 ^ 28) :
    Heap.units nbytes = need nbytes ∧ nbytes + HEADER ≤ HEADER * need nbytes := by
  unfold Heap.units need u32 HEADER at *
  omega

/-- A step: **`malloc`** returns, with a heap as before or with one block more in use. -/
theorem Ok.malloc (hbase : 0 < base) (hs : Ok base s) {sbrk : ℕ → Option ℕ} {nbytes : ℕ}
    (hneed : need nbytes < 2 ^ 28) (hsbrk : Fresh base s.heap.regions sbrk) :
    ∃ ap h', Returns (fun fuel => s.heap.malloc base fuel sbrk nbytes) (ap, h') ∧
      (ap = 0 ∧ Ok base ⟨h', s.live⟩ ∨ ap ≠ 0 ∧ Ok base ⟨h', ⟨ap, nbytes⟩ :: s.live⟩) := by
  obtain ⟨fl, hinv, hregions⟩ := hs.start hbase
  obtain ⟨hunits, hroom⟩ := room_units hneed
  rw [← hregions] at hsbrk
  obtain ⟨ap, h', fl', hcall, hend⟩ := hinv.mallocLoop_returns hbase hroom hneed hsbrk
  refine ⟨ap, h', ?_, ?_⟩
  · unfold Heap.malloc
    rw [hunits]
    exact hcall
  · rcases hend with ⟨hap, hinv'⟩ | ⟨hap, hinv'⟩
    · exact Or.inl ⟨hap, Or.inr ⟨fl', hinv'⟩⟩
    · exact Or.inr ⟨hap, Or.inr ⟨fl', hinv'⟩⟩

/-- A step: **`free`** returns. -/
theorem Ok.free {heap : Heap} {l₁ l₂ : List Live} {b : Live} (hs : Ok base ⟨heap, l₁ ++ b :: l₂⟩) :
    ∃ h', Returns (fun fuel => heap.free fuel b.ap) h' ∧ Ok base ⟨h', l₁ ++ l₂⟩ := by
  rcases hs with ⟨-, -, hlive⟩ | ⟨fl, hinv⟩
  · exact absurd hlive (by simp)
  · obtain ⟨h', fl', hcall, hinv', -⟩ := hinv.free
    exact ⟨h', hcall, Or.inr ⟨fl', hinv'⟩⟩

/-- The run: the invariant holds in every state. -/
theorem Reachable.ok (hbase : 0 < base) (h : Reachable base s) : Ok base s := by
  induction h with
  | start mem => exact Or.inl ⟨rfl, rfl, rfl⟩
  | failed h hneed hsbrk hcall ih =>
    obtain ⟨ap, h', hcall', hend⟩ := ih.malloc hbase hneed hsbrk
    obtain ⟨rfl, rfl⟩ := Prod.mk.inj (hcall'.eq hcall)
    rcases hend with ⟨-, hok⟩ | ⟨hap, -⟩
    · exact hok
    · exact absurd rfl hap
  | malloc h hneed hsbrk hcall hap ih =>
    obtain ⟨ap, h', hcall', hend⟩ := ih.malloc hbase hneed hsbrk
    obtain ⟨rfl, rfl⟩ := Prod.mk.inj (hcall'.eq hcall)
    rcases hend with ⟨hzero, -⟩ | ⟨-, hok⟩
    · exact absurd hzero hap
    · exact hok
  | free h hcall ih =>
    obtain ⟨h', hcall', hok⟩ := ih.free
    obtain rfl := hcall'.eq hcall
    exact hok

end Runs

/-- The heap is intact, with the free blocks `fl`. -/
structure Intact (base : ℕ) (s : State) (fl : List ℕ) : Prop where
  /-- From `base` on, the list is in the order of the addresses. -/
  ordered : (base :: fl).Pairwise (· < ·)
  /-- It is circular, and `freep` is in it, once `malloc` has been called. -/
  circular : s.heap.freep ≠ 0 → Circle s.heap.ptr (base :: fl) ∧ s.heap.freep ∈ base :: fl
  /-- No free block ends where the next one begins. -/
  separate : fl.Pairwise fun x y => x + HEADER * s.heap.size x < y
  /-- No two blocks overlap, free or in use. -/
  disjoint : (s.heap.chunks (fl ++ headers s.live)).Pairwise (Chunk.Apart HEADER)
  /-- A block in use has room for its bytes behind the header. -/
  usable : ∀ b ∈ s.live, HEADER ≤ b.ap ∧ b.nbytes ≤ HEADER * (s.heap.size (b.ap - HEADER) - 1)
  /-- Every unit from `sbrk` is in exactly one block. -/
  conserved : ∀ x, (∃ r ∈ s.heap.regions, Chunk.HasUnit HEADER x r) →
    ∃! c, c ∈ s.heap.chunks (fl ++ headers s.live) ∧ Chunk.HasUnit HEADER x c

/-- **Integrity of the user heap**: in every state the heap is intact, and the calls return. -/
theorem heap_integrity {base : ℕ} {s : State} (hbase : 0 < base) (h : Reachable base s) :
    (∃ fl, Intact base s fl) ∧
    (∀ nbytes sbrk, need nbytes < 2 ^ 28 → Fresh base s.heap.regions sbrk →
      ∃ r, Returns (fun fuel => s.heap.malloc base fuel sbrk nbytes) r) ∧
    ∀ b ∈ s.live, ∃ h', Returns (fun fuel => s.heap.free fuel b.ap) h' := by
  have hok := h.ok hbase
  refine ⟨?_, fun nbytes sbrk hneed hsbrk => ?_, fun b hb => ?_⟩
  · rcases hok with ⟨hfreep, hregions, hlive⟩ | ⟨fl, hinv⟩
    · refine ⟨[], pairwise_singleton _ _, fun hne => absurd hfreep hne, List.Pairwise.nil, ?_, ?_,
        ?_⟩
      · rw [hlive]
        exact List.Pairwise.nil
      · rw [hlive]
        exact nofun
      · rw [hregions]
        rintro x ⟨r, hr, -⟩
        cases hr
    · refine ⟨fl, hinv.list.sorted, fun _ => ⟨hinv.list.circle, hinv.list.freep_mem⟩,
        (pairwise_cons.mp hinv.list.gaps).2, hinv.chunks_apart, fun b hb => ?_, fun x hx =>
        hinv.recut'.existsUnique_hasUnit (by decide) hinv.apart hx⟩
      have hroom := hinv.room b hb
      have hlt := hinv.base_lt (mem_append_right fl (mem_map.mpr ⟨b, hb, rfl⟩))
      unfold HEADER at *
      omega
  · obtain ⟨ap, h', hcall, -⟩ := hok.malloc hbase hneed hsbrk
    exact ⟨_, hcall⟩
  · obtain ⟨l₁, l₂, hsplit⟩ := append_of_mem hb
    obtain ⟨heap, live⟩ := s
    obtain rfl : live = l₁ ++ b :: l₂ := hsplit
    obtain ⟨h', hcall, -⟩ := hok.free
    exact ⟨h', hcall⟩

/-- The heap of a new program. -/
def newHeap : Heap := ⟨fun _ => ⟨0, 0⟩, 0, []⟩

/-- An `sbrk` that has 4096 units. -/
def sbrkOnce (n : ℕ) : Option ℕ := if n = 32768 then some 4096 else none

theorem sbrkOnce_fresh : Fresh 8 [] sbrkOnce := by
  intro n p hp
  obtain ⟨rfl, rfl⟩ : n = 32768 ∧ 4096 = p := by simpa [sbrkOnce] using hp
  exact ⟨by decide, nofun, by decide⟩

/-- `malloc(20)` in a new program takes four units from the end of the first 4096. -/
theorem heap_integrity_malloc :
    ∃ s, Reachable 8 s ∧ s.live = [⟨36840, 20⟩] ∧ ∃ fl, Intact 8 s fl := by
  obtain ⟨h', hthree⟩ : ∃ h', newHeap.malloc 8 3 sbrkOnce 20 = some (36840, h') := ⟨_, by rfl⟩
  have hcall : Returns (fun fuel => newHeap.malloc 8 fuel sbrkOnce 20) (36840, h') := by
    refine ⟨3, fun fuel hfuel => ?_⟩
    obtain ⟨k, rfl⟩ := Nat.exists_eq_add_of_le' hfuel
    rw [← hthree]
    rfl
  have hreach := Reachable.malloc (Reachable.start newHeap.mem) (by decide) sbrkOnce_fresh hcall
    (by decide)
  exact ⟨_, hreach, rfl, (heap_integrity (by decide) hreach).1⟩

end Umalloc
