/-
# The user heap

`malloc`, `free` and `morecore` of `umalloc.c`.  A block is a header of one unit and the memory
behind it.  The free blocks and `base`, a header of size zero at an address below the heap, are a
circular list in the order of their addresses, which `free` searches for the place of a block and
`malloc` for a block that is large enough.  The loops have no bound of their own, so they are given
fuel; that a call returns means that it does with any fuel that is large enough.

Here are the model and what the functions do to the list of the free blocks; the whole heap is
the subject of `Xv6.HeapIntegrity`.
-/
import Xv6.Circular
import Xv6.Chunks
import Xv6.LittleEndian

open Function Circular List

namespace Umalloc

/-! ## The model -/

/-- `sizeof(Header)`. -/
abbrev HEADER : ℕ := 8

structure Header where
  ptr : ℕ
  size : ℕ

/-- The headers in memory, `freep`, which is `0` at first, and the memory obtained from `sbrk`
so far. -/
structure Heap where
  mem : ℕ → Header
  freep : ℕ
  regions : List Chunk

/-- `p + n` for a pointer `p` to a header. -/
def plus (p n : ℕ) : ℕ := u32 (p + HEADER * n)

namespace Heap

/-- `p->s.ptr`. -/
def ptr (h : Heap) (p : ℕ) : ℕ := (h.mem p).ptr

/-- `p->s.size`. -/
def size (h : Heap) (p : ℕ) : ℕ := (h.mem p).size

/-- Change the header at `p`. -/
def set (h : Heap) (p : ℕ) (hd : Header) : Heap := { h with mem := update h.mem p hd }

/-- The loop of `free` stops at `p`: its condition fails, or there is a `break`. -/
def stops (h : Heap) (bp p : ℕ) : Bool :=
  (p < bp && bp < h.ptr p) || (h.ptr p ≤ p && (p < bp || bp < h.ptr p))

/-- What `free` stores at the block `bp` in front of `next`: the two are joined if they meet. -/
def joinNext (h : Heap) (bp next : ℕ) : Header :=
  if plus bp (h.size bp) = next then ⟨h.ptr next, u32 (h.size bp + h.size next)⟩
  else ⟨next, h.size bp⟩

/-- What `free` stores at the block `p` before `bp`. -/
def joinPrev (h : Heap) (p bp : ℕ) : Header :=
  if plus p (h.size p) = bp then ⟨h.ptr bp, u32 (h.size p + h.size bp)⟩ else ⟨bp, h.size p⟩

/-- `free` after its loop: the block `bp` is put behind `p`, and joined with the blocks it
meets. -/
def insert (h : Heap) (bp p : ℕ) : Heap :=
  let h := h.set bp (h.joinNext bp (h.ptr p))
  let h := h.set p (h.joinPrev p bp)
  { h with freep := p }

def free (fuel : ℕ) (h : Heap) (ap : ℕ) : Option Heap :=
  let bp := ap - HEADER
  (search h.ptr (h.stops bp) fuel h.freep).map (h.insert bp)

/-- `sbrk` is given the number of bytes; `none` is `-1`.  Returns `freep`, or `0`. -/
def morecore (fuel : ℕ) (sbrk : ℕ → Option ℕ) (h : Heap) (nu : ℕ) : Option (ℕ × Heap) :=
  let nu := if nu < 4096 then 4096 else nu
  match sbrk (u32 (nu * HEADER)) with
  | none => some (0, h)
  | some p =>
    let h := { h.set p ⟨h.ptr p, nu⟩ with regions := ⟨p, nu⟩ :: h.regions }
    (h.free fuel (plus p 1)).map fun h => (h.freep, h)

/-- `malloc` takes `nunits` units from the block `p` behind `prevp`. -/
def allocate (h : Heap) (nunits prevp p : ℕ) : ℕ × Heap :=
  if h.size p = nunits then
    (plus p 1, { h.set prevp ⟨h.ptr p, h.size prevp⟩ with freep := prevp })
  else
    let h := h.set p ⟨h.ptr p, h.size p - nunits⟩
    let p := plus p (h.size p)
    let h := h.set p ⟨h.ptr p, nunits⟩
    (plus p 1, { h with freep := prevp })

/-- The loop of `malloc`. -/
def mallocLoop (fuel : ℕ) (sbrk : ℕ → Option ℕ) (nunits : ℕ) :
    ℕ → Heap → ℕ → ℕ → Option (ℕ × Heap)
  | 0, _, _, _ => none
  | rounds + 1, h, prevp, p =>
    if nunits ≤ h.size p then some (h.allocate nunits prevp p)
    else if p = h.freep then
      (h.morecore fuel sbrk nunits).bind fun (p, h) =>
        if p = 0 then some (0, h) else mallocLoop fuel sbrk nunits rounds h p (h.ptr p)
    else mallocLoop fuel sbrk nunits rounds h p (h.ptr p)

/-- The list of free blocks before the first call. -/
def start (base : ℕ) (h : Heap) : Heap :=
  if h.freep = 0 then { h.set base ⟨base, 0⟩ with freep := base } else h

/-- The units of a block with room for `nbytes` bytes. -/
def units (nbytes : ℕ) : ℕ := u32 (nbytes + HEADER - 1) / HEADER + 1

/-- `base` is the address of the variable `base`. -/
def malloc (base fuel : ℕ) (sbrk : ℕ → Option ℕ) (h : Heap) (nbytes : ℕ) : Option (ℕ × Heap) :=
  let h := h.start base
  h.mallocLoop fuel sbrk (units nbytes) fuel h.freep (h.ptr h.freep)

@[simp] theorem set_freep (h : Heap) (p : ℕ) (hd : Header) : (h.set p hd).freep = h.freep := rfl

@[simp] theorem set_regions (h : Heap) (p : ℕ) (hd : Header) :
    (h.set p hd).regions = h.regions := rfl

theorem set_ptr (h : Heap) (p : ℕ) (hd : Header) :
    (h.set p hd).ptr = update h.ptr p hd.ptr := by
  funext a
  exact Function.apply_update (fun _ => Header.ptr) h.mem p hd a

theorem set_size (h : Heap) (p : ℕ) (hd : Header) :
    (h.set p hd).size = update h.size p hd.size := by
  funext a
  exact Function.apply_update (fun _ => Header.size) h.mem p hd a

/-! ## The list of free blocks -/

/-- The blocks at the addresses `l`. -/
def chunks (h : Heap) (l : List ℕ) : List Chunk := l.map fun a => ⟨a, h.size a⟩

theorem chunks_append (h : Heap) (l l' : List ℕ) : h.chunks (l ++ l') = h.chunks l ++ h.chunks l' :=
  map_append

theorem chunks_cons (h : Heap) (a : ℕ) (l : List ℕ) :
    h.chunks (a :: l) = ⟨a, h.size a⟩ :: h.chunks l := rfl

theorem chunks_congr {h h' : Heap} {l : List ℕ} (hsize : ∀ a ∈ l, h'.size a = h.size a) :
    h'.chunks l = h.chunks l :=
  map_congr_left fun a ha => by rw [hsize a ha]

/-- **The list of free blocks**: `base` and the blocks `fl` are a circle, from `base` on in the
order of their addresses, and no two of them meet. -/
structure FreeList (base : ℕ) (h : Heap) (fl : List ℕ) : Prop where
  circle : Circle h.ptr (base :: fl)
  gaps : (base :: fl).Pairwise fun x y => x + HEADER * h.size x < y
  base_size : h.size base = 0
  size_pos : ∀ a ∈ fl, 0 < h.size a
  freep_mem : h.freep ∈ base :: fl

/-- No block of the list is `base`. -/
theorem FreeList.of {base : ℕ} {h : Heap} {fl : List ℕ} (hcircle : Circle h.ptr (base :: fl))
    (hgaps : (base :: fl).Pairwise fun x y => x + HEADER * h.size x < y) (hbase : h.size base = 0)
    (hpos : ∀ a ∈ base :: fl, a ≠ base → 0 < h.size a) (hfreep : h.freep ∈ base :: fl) :
    FreeList base h fl := by
  refine ⟨hcircle, hgaps, hbase, fun a ha => hpos a (mem_cons_of_mem _ ha) ?_, hfreep⟩
  have hlt := (pairwise_cons.mp hgaps).1 a ha
  omega

/-- A block that is not in the list: it does not overlap those that are. -/
structure Beside (base : ℕ) (h : Heap) (fl : List ℕ) (bp : ℕ) : Prop where
  base_lt : base < bp
  size_pos : 0 < h.size bp
  apart : ∀ a ∈ fl, Chunk.Apart HEADER ⟨a, h.size a⟩ ⟨bp, h.size bp⟩

/-- All blocks are in the address space. -/
def InSpace (h : Heap) (l : List ℕ) : Prop := ∀ a ∈ l, a + HEADER * h.size a < 2 ^ 32

namespace FreeList

variable {base bp : ℕ} {h : Heap} {fl : List ℕ}

theorem sorted (hfl : FreeList base h fl) : (base :: fl).Pairwise (· < ·) :=
  hfl.gaps.imp fun hxy => (Nat.le_add_right _ _).trans_lt hxy

theorem nodup (hfl : FreeList base h fl) : (base :: fl).Nodup := hfl.sorted.imp fun hxy => hxy.ne

theorem base_lt (hfl : FreeList base h fl) {a : ℕ} (ha : a ∈ fl) : base < a :=
  (pairwise_cons.mp hfl.sorted).1 a ha

theorem notMem (_hfl : FreeList base h fl) (hbp : Beside base h fl bp) : bp ∉ base :: fl := by
  intro hmem
  rcases mem_cons.mp hmem with rfl | hmem
  · exact absurd hbp.base_lt (lt_irrefl _)
  · have hpos := hbp.size_pos
    rcases hbp.apart bp hmem with hap | hap <;>
    · unfold Chunk.stop HEADER at hap
      dsimp only at hap
      omega

/-- The last block of the list before an address. -/
theorem exists_pred {b : ℕ} {l : List ℕ} (hsorted : (b :: l).Pairwise (· < ·)) (hb : b < bp)
    (hbp : bp ∉ b :: l) : ∃ xs p ys, b :: l = xs ++ p :: ys ∧ p < bp ∧ ∀ y ∈ ys, bp < y := by
  induction l generalizing b with
  | nil => exact ⟨[], b, [], rfl, hb, nofun⟩
  | cons c l ih =>
    obtain ⟨hbl, hcl⟩ := pairwise_cons.mp hsorted
    by_cases hc : c < bp
    · obtain ⟨xs, p, ys, heq, hp, hys⟩ := ih hcl hc fun hmem => hbp (mem_cons_of_mem _ hmem)
      exact ⟨b :: xs, p, ys, by rw [heq]; rfl, hp, hys⟩
    · refine ⟨[], b, c :: l, rfl, hb, fun y hy => ?_⟩
      have hne : c ≠ bp := fun heq => hbp (by simp [heq])
      rcases mem_cons.mp hy with rfl | hy
      · omega
      · have := (pairwise_cons.mp hcl).1 y hy
        omega

/-- In a list in order, what is larger comes later. -/
theorem mem_of_lt {as bs : List ℕ} {x z : ℕ} (hsorted : (as ++ x :: bs).Pairwise (· < ·))
    (hz : z ∈ as ++ x :: bs) (hlt : x < z) : z ∈ bs := by
  rcases mem_append.mp hz with hz | hz
  · have := (pairwise_append.mp hsorted).2.2 z hz x mem_cons_self
    omega
  · rcases mem_cons.mp hz with rfl | hz
    · exact absurd hlt (lt_irrefl _)
    · exact hz

/-- The block behind a block of the list. -/
theorem ptr_eq (hfl : FreeList base h fl) {xs ys : List ℕ} {p : ℕ} (hsplit : base :: fl = xs ++ p :: ys) :
    (∃ ys', ys = h.ptr p :: ys') ∨ ys = [] ∧ h.ptr p = base := by
  have hcircle : Circle h.ptr (p :: (ys ++ xs)) := by
    have := hfl.circle
    rw [hsplit] at this
    exact this.rotate
  cases ys with
  | cons y ys => exact Or.inl ⟨ys, by rw [Linked.next_eq hcircle]⟩
  | nil =>
    refine Or.inr ⟨rfl, ?_⟩
    cases xs with
    | nil =>
      obtain ⟨rfl, -⟩ := cons.inj hsplit
      exact Linked.next_eq hcircle
    | cons x xs =>
      obtain ⟨rfl, -⟩ := cons.inj hsplit
      exact Linked.next_eq hcircle

/-- **The loop of `free`** stops at the last block before `bp`, wherever it starts. -/
theorem stops_iff (hfl : FreeList base h fl) (hbase : base < bp) {xs ys : List ℕ} {p : ℕ}
    (hsplit : base :: fl = xs ++ p :: ys) (hp : p < bp) (hys : ∀ y ∈ ys, bp < y) {x : ℕ}
    (hx : x ∈ base :: fl) : h.stops bp x = true ↔ x = p := by
  have hsorted := hfl.sorted
  unfold stops
  simp only [Bool.or_eq_true, Bool.and_eq_true, decide_eq_true_eq]
  constructor
  · intro hstop
    have hpmem : p ∈ base :: fl := by
      rw [hsplit]
      simp
    have hbefore : x < bp → x ≤ p := by
      intro hlt
      by_contra hgt
      rw [hsplit] at hsorted hx
      have := hys x (mem_of_lt hsorted hx (not_le.mp hgt))
      omega
    obtain ⟨as, bs, hat⟩ := append_of_mem hx
    rcases hfl.ptr_eq hat with ⟨bs', rfl⟩ | ⟨rfl, hlast⟩
    · -- the block behind `x` has a higher address, so `bp` is between the two
      rw [hat] at hsorted hpmem
      have hrest := (pairwise_append.mp hsorted).2.1
      have hnext := (pairwise_cons.mp hrest).1 _ mem_cons_self
      have hxp := hbefore (by omega)
      by_contra hne
      have hpbs := mem_of_lt hsorted hpmem (lt_of_le_of_ne hxp hne)
      rcases mem_cons.mp hpbs with heq | hmem
      · omega
      · have := (pairwise_cons.mp (pairwise_cons.mp hrest).2).1 p hmem
        omega
    · rw [hat] at hsorted hpmem
      have hxp := hbefore (by omega)
      by_contra hne
      exact absurd (mem_of_lt hsorted hpmem (lt_of_le_of_ne hxp hne)) (not_mem_nil)
  · rintro rfl
    rcases hfl.ptr_eq hsplit with ⟨ys', hys'⟩ | ⟨-, hlast⟩
    · exact Or.inl ⟨hp, hys _ (by rw [hys']; exact mem_cons_self)⟩
    · have hle : base ≤ x := by
        rcases mem_cons.mp hx with rfl | hx
        · exact le_rfl
        · exact (hfl.base_lt hx).le
      rw [hlast]
      exact Or.inr ⟨hle, Or.inl hp⟩

end FreeList

/-! ## `free` -/

/-- What `free` does to the list: the block `bp` becomes part of it, and no other block is
touched. -/
structure Joined (base bp : ℕ) (h : Heap) (fl : List ℕ) (h' : Heap) (fl' : List ℕ) : Prop where
  list : FreeList base h' fl'
  recut : Chunk.Recut HEADER (h'.chunks (base :: fl')) (⟨bp, h.size bp⟩ :: h.chunks (base :: fl))
  frame : ∀ a, a ∉ base :: fl → a ≠ bp → h'.size a = h.size a
  regions : h'.regions = h.regions
  large : ∃ a ∈ fl', h.size bp ≤ h'.size a

section Insert

variable {base bp : ℕ} {h : Heap} {fl xs ys : List ℕ} {p : ℕ}

theorem plus_eq {p n : ℕ} (hlt : p + HEADER * n < 2 ^ 32) : plus p n = p + HEADER * n :=
  Nat.mod_eq_of_lt hlt

/-- The first part of `insert`: the header `bp` gets, for the block joined with the one behind
it if the two meet. -/
structure Joins (h : Heap) (bp : ℕ) (xs : List ℕ) (p : ℕ) (ys : List ℕ) (hd : Header)
    (ys' : List ℕ) : Prop where
  circle : Circle (update h.ptr p hd.ptr) (xs ++ p :: ys')
  recut : Chunk.Recut HEADER (⟨bp, hd.size⟩ :: h.chunks ys') (⟨bp, h.size bp⟩ :: h.chunks ys)
  gap : ∀ y ∈ ys', bp + HEADER * hd.size < y
  sublist : ys'.Sublist ys
  le_size : h.size bp ≤ hd.size
  in_space : bp + HEADER * hd.size < 2 ^ 32

theorem FreeList.joinNext (hfl : FreeList base h fl) (hbp : Beside base h fl bp)
    (hspace : h.InSpace (bp :: fl)) (hsplit : base :: fl = xs ++ p :: ys)
    (hys : ∀ y ∈ ys, bp < y) : ∃ ys', Joins h bp xs p ys (h.joinNext bp (h.ptr p)) ys' := by
  have hroom := hspace bp mem_cons_self
  have hmem : ∀ y ∈ ys, y ∈ fl := by
    intro y hy
    have hy' : y ∈ base :: fl := by
      rw [hsplit]
      simp [hy]
    rcases mem_cons.mp hy' with rfl | hy'
    · have := hys y hy
      have := hbp.base_lt
      omega
    · exact hy'
  have hle : ∀ y ∈ ys, bp + HEADER * h.size bp ≤ y := by
    intro y hy
    have hlt := hys y hy
    rcases hbp.apart y (hmem y hy) with hap | hap
    · unfold Chunk.stop at hap
      dsimp only at hap
      omega
    · exact hap
  have hcircle := hfl.circle
  rw [hsplit] at hcircle
  have hgaps := hfl.gaps
  rw [hsplit] at hgaps
  have hnodup := hfl.nodup
  rw [hsplit] at hnodup
  unfold Heap.joinNext
  rw [plus_eq hroom]
  by_cases hmeet : bp + HEADER * h.size bp = h.ptr p
  · -- the block behind is not `base`, which has a lower address
    rw [if_pos hmeet]
    rcases hfl.ptr_eq hsplit with ⟨ys', rfl⟩ | ⟨-, hlast⟩
    · have hy := hspace (h.ptr p) (mem_cons_of_mem _ (hmem _ mem_cons_self))
      have hsum : u32 (h.size bp + h.size (h.ptr p)) = h.size bp + h.size (h.ptr p) := by
        refine Nat.mod_eq_of_lt ?_
        unfold HEADER at *
        omega
      have hgap := (pairwise_cons.mp (pairwise_cons.mp
        (pairwise_append.mp hgaps).2.1).2).1
      refine ⟨ys', ?_, ?_, fun y hy' => ?_, sublist_cons_self _ _, ?_, ?_⟩
      · exact hcircle.remove hnodup
      · rw [hsum]
        have hjoin := Chunk.Recut.join (u := HEADER) bp (h.size bp) (h.size (h.ptr p)) (h.chunks ys')
        rw [hmeet] at hjoin
        exact hjoin.symm
      · have := hgap y hy'
        rw [hsum]
        unfold HEADER at *
        dsimp only
        omega
      · rw [hsum]
        exact Nat.le_add_right _ _
      · rw [hsum]
        unfold HEADER at *
        dsimp only
        omega
    · have := hbp.base_lt
      omega
  · rw [if_neg hmeet]
    refine ⟨ys, ?_, Chunk.Recut.refl _ _, fun y hy => ?_, List.Sublist.refl _, le_rfl, hroom⟩
    · dsimp only
      rwa [update_eq_self]
    · have hne : bp + HEADER * h.size bp ≠ y := by
        rintro rfl
        rcases hfl.ptr_eq hsplit with ⟨ys', rfl⟩ | ⟨rfl, -⟩
        · -- the next block is the first of those behind `bp`
          rcases mem_cons.mp hy with heq | hmem'
          · exact hmeet heq
          · have hlt := (pairwise_cons.mp (pairwise_cons.mp
              (pairwise_append.mp hgaps).2.1).2).1 _ hmem'
            have := hle _ mem_cons_self
            have hpos := hfl.size_pos _ (hmem _ mem_cons_self)
            unfold HEADER at *
            omega
        · cases hy
      exact lt_of_le_of_ne (hle y hy) hne

/-- What is in front of the list stays there. -/
theorem exists_cons_eq (hsplit : base :: fl = xs ++ p :: ys) (ys' : List ℕ) :
    ∃ fl', base :: fl' = xs ++ p :: ys' := by
  cases xs with
  | nil =>
    obtain ⟨rfl, -⟩ := cons.inj hsplit
    exact ⟨ys', rfl⟩
  | cons x xs =>
    obtain ⟨rfl, -⟩ := cons.inj hsplit
    exact ⟨xs ++ p :: ys', rfl⟩

/-- The heap after `insert` has stored two headers. -/
def stored (h : Heap) (bp : ℕ) (hd : Header) (p : ℕ) (hd' : Header) : Heap :=
  { (h.set bp hd).set p hd' with freep := p }

theorem stored_size (h : Heap) (bp : ℕ) (hd : Header) (p : ℕ) (hd' : Header) :
    (h.stored bp hd p hd').size = update (update h.size bp hd.size) p hd'.size := by
  show ((h.set bp hd).set p hd').size = _
  rw [set_size, set_size]

theorem stored_ptr (h : Heap) (bp : ℕ) (hd : Header) (p : ℕ) (hd' : Header) :
    (h.stored bp hd p hd').ptr = update (update h.ptr bp hd.ptr) p hd'.ptr := by
  show ((h.set bp hd).set p hd').ptr = _
  rw [set_ptr, set_ptr]

theorem stored_size_of_ne {hd hd' : Header} {a : ℕ} (hbp : a ≠ bp) (hp : a ≠ p) :
    (h.stored bp hd p hd').size a = h.size a := by
  rw [stored_size, update_of_ne hp, update_of_ne hbp]

theorem stored_size_self (h : Heap) (bp : ℕ) (hd : Header) (p : ℕ) (hd' : Header) :
    (h.stored bp hd p hd').size p = hd'.size := by
  rw [stored_size, update_self]

theorem Joins.sublist_ring {hd : Header} {ys' : List ℕ} (hj : Joins h bp xs p ys hd ys')
    (hsplit : base :: fl = xs ++ p :: ys) : (xs ++ p :: ys').Sublist (base :: fl) := by
  rw [hsplit]
  exact List.Sublist.append_left (hj.sublist.cons_cons p) xs

/-- A block of the list other than `p` stays as it is. -/
theorem FreeList.stored_size (hfl : FreeList base h fl) (hbp : Beside base h fl bp)
    {hd hd' : Header} {a : ℕ} (ha : a ∈ base :: fl) (hap : a ≠ p) :
    (h.stored bp hd p hd').size a = h.size a := by
  refine stored_size_of_ne ?_ hap
  rintro rfl
  exact hfl.notMem hbp ha

section Cases

variable {hd : Header} {ys' : List ℕ} (hfl : FreeList base h fl) (hbp : Beside base h fl bp)
  (hj : Joins h bp xs p ys hd ys') (hsplit : base :: fl = xs ++ p :: ys)
include hfl hbp hj hsplit

/-- The block is joined with the one before it. -/
theorem Joins.prev (hmeet : p + HEADER * h.size p = bp) :
    ∃ fl', Joined base bp h fl (h.stored bp hd p ⟨hd.ptr, h.size p + hd.size⟩) fl' := by
  obtain ⟨fl', hfl'⟩ := exists_cons_eq hsplit ys'
  have hsub := hj.sublist_ring hsplit
  have hnot := hfl.notMem hbp
  have hnodup := hfl.nodup.sublist hsub
  obtain ⟨hxs, hp, hcross⟩ := pairwise_append.mp (hfl.gaps.sublist hsub)
  obtain ⟨-, hys⟩ := pairwise_cons.mp hp
  have hsize : ∀ a ∈ xs ++ p :: ys', a ≠ p →
      (h.stored bp hd p ⟨hd.ptr, h.size p + hd.size⟩).size a = h.size a := fun a ha hap =>
    hfl.stored_size hbp (hsub.subset ha) hap
  have hxp : ∀ a ∈ xs, a ≠ p := by
    rintro a ha rfl
    exact (nodup_append.mp hnodup).2.2 a ha a mem_cons_self rfl
  have hyp : ∀ a ∈ ys', a ≠ p := by
    rintro a ha rfl
    exact (nodup_cons.mp (nodup_append.mp hnodup).2.1).1 ha
  have hbase : base ≠ p := by
    rintro rfl
    rw [hfl.base_size] at hmeet
    exact absurd hbp.base_lt (by omega)
  have hlarge : h.size bp ≤ h.size p + hd.size := hj.le_size.trans (Nat.le_add_left _ _)
  have hpmem : p ∈ fl' := by
    have hmem : p ∈ base :: fl' := by
      rw [hfl']
      simp
    exact (mem_cons.mp hmem).resolve_left hbase.symm
  refine ⟨fl', .of ?_ ?_ ?_ ?_ ?_, ?_, fun a ha hab => ?_, rfl, p, hpmem, ?_⟩
  · rw [hfl', stored_ptr]
    refine hj.circle.congr fun x hx => ?_
    by_cases hxp : x = p
    · rw [hxp, update_self, update_self]
    · have hxbp : x ≠ bp := fun heq => hnot (heq ▸ hsub.subset hx)
      rw [update_of_ne hxp, update_of_ne hxp, update_of_ne hxbp]
  · rw [hfl']
    refine pairwise_append.mpr ⟨?_, pairwise_cons.mpr ⟨fun y hy => ?_, ?_⟩, ?_⟩
    · refine List.Pairwise.imp_of_mem (fun {a b} ha _ hab => ?_) hxs
      rwa [hsize a (mem_append_left _ ha) (hxp a ha)]
    · have hgap := hj.gap y hy
      rw [stored_size_self]
      unfold HEADER at *
      dsimp only
      omega
    · refine List.Pairwise.imp_of_mem (fun {a b} ha _ hab => ?_) hys
      rwa [hsize a (by simp [ha]) (hyp a ha)]
    · intro a ha b hb
      rw [hsize a (mem_append_left _ ha) (hxp a ha)]
      exact hcross a ha b hb
  · rw [hfl.stored_size hbp mem_cons_self hbase]
    exact hfl.base_size
  · intro a ha hab
    have hmem : a ∈ xs ++ p :: ys' := hfl' ▸ ha
    by_cases hap : a = p
    · rw [hap, stored_size_self]
      exact hbp.size_pos.trans_le hlarge
    · rw [hsize a hmem hap]
      exact hfl.size_pos a ((mem_cons.mp (hsub.subset hmem)).resolve_left hab)
  · exact mem_cons_of_mem _ hpmem
  · intro w hw
    have hrecut := hj.recut w hw
    have hadd := hw p (h.size p) hd.size
    have hxs' := chunks_congr fun a ha => hsize a (mem_append_left _ ha) (hxp a ha)
    have hys' := chunks_congr fun a ha => hsize a (by simp [ha] : a ∈ xs ++ p :: ys') (hyp a ha)
    rw [hmeet] at hadd
    rw [hfl', hsplit, chunks_append, chunks_append, chunks_cons, chunks_cons, hxs', hys',
      stored_size_self]
    simp only [Chunk.weigh_append, Chunk.weigh_cons] at hrecut ⊢
    omega
  · refine stored_size_of_ne hab fun hap => ha ?_
    rw [hap, hsplit]
    simp
  · rw [stored_size_self]
    exact hlarge

/-- The block does not meet the one before it. -/
theorem Joins.apart (hlt : p + HEADER * h.size p < bp) :
    ∃ fl', Joined base bp h fl (h.stored bp hd p ⟨bp, h.size p⟩) fl' := by
  obtain ⟨fl', hfl'⟩ := exists_cons_eq hsplit (bp :: ys')
  have hsub := hj.sublist_ring hsplit
  have hnot := hfl.notMem hbp
  have hnot' : bp ∉ xs ++ p :: ys' := fun hmem => hnot (hsub.subset hmem)
  have hnodup := hfl.nodup.sublist hsub
  obtain ⟨hxs, hp, hcross⟩ := pairwise_append.mp (hfl.gaps.sublist hsub)
  obtain ⟨-, hys⟩ := pairwise_cons.mp hp
  -- no block but `bp` changes its size
  have hsize : ∀ a, a ≠ bp → (h.stored bp hd p ⟨bp, h.size p⟩).size a = h.size a := by
    intro a ha
    by_cases hap : a = p
    · rw [hap, stored_size_self]
    · exact stored_size_of_ne ha hap
  have hsizebp : (h.stored bp hd p ⟨bp, h.size p⟩).size bp = hd.size := by
    have hne : bp ≠ p := fun heq => hnot' (by rw [heq]; simp)
    rw [stored_size, update_of_ne hne, update_self]
  have hmem_ne : ∀ a ∈ xs ++ p :: ys', a ≠ bp := fun a ha heq => hnot' (heq ▸ ha)
  refine ⟨fl', .of ?_ ?_ ?_ ?_ ?_, ?_, fun a _ hab => hsize a hab, rfl, bp, ?_, ?_⟩
  · rw [hfl', stored_ptr]
    refine (hj.circle.insert hnodup hnot').congr fun x _ => ?_
    by_cases hxp : x = p
    · rw [hxp, update_self, update_self]
    · rw [update_of_ne hxp, update_of_ne hxp, update_self]
      by_cases hxbp : x = bp
      · rw [hxbp, update_self, update_self]
      · rw [update_of_ne hxbp, update_of_ne hxbp, update_of_ne hxp]
  · rw [hfl']
    have hpsize := hsize p (hmem_ne p (by simp))
    refine pairwise_append.mpr ⟨?_, pairwise_cons.mpr ⟨fun y hy => ?_,
      pairwise_cons.mpr ⟨fun y hy => ?_, ?_⟩⟩, fun a ha b hb => ?_⟩
    · refine List.Pairwise.imp_of_mem (fun {a b} ha _ hab => ?_) hxs
      rwa [hsize a (hmem_ne a (mem_append_left _ ha))]
    · rw [hpsize]
      rcases mem_cons.mp hy with rfl | hy
      · exact hlt
      · have := hj.gap y hy
        omega
    · rw [hsizebp]
      exact hj.gap y hy
    · refine List.Pairwise.imp_of_mem (fun {a b} ha _ hab => ?_) hys
      rwa [hsize a (hmem_ne a (by simp [ha]))]
    · rw [hsize a (hmem_ne a (mem_append_left _ ha))]
      have hap := hcross a ha p mem_cons_self
      rcases mem_cons.mp hb with rfl | hb
      · exact hap
      · rcases mem_cons.mp hb with rfl | hb
        · omega
        · exact hcross a ha b (mem_cons_of_mem _ hb)
  · rw [hsize base hbp.base_lt.ne]
    exact hfl.base_size
  · intro a ha hne
    have hmem : a ∈ xs ++ p :: bp :: ys' := hfl' ▸ ha
    by_cases hab : a = bp
    · rw [hab, hsizebp]
      exact hbp.size_pos.trans_le hj.le_size
    · rw [hsize a hab]
      refine hfl.size_pos a ((mem_cons.mp (hsub.subset ?_)).resolve_left hne)
      simp only [mem_append, mem_cons] at hmem ⊢
      tauto
  · rw [hfl']
    show p ∈ _
    simp
  · intro w hw
    have hrecut := hj.recut w hw
    have hxs' := chunks_congr fun a ha => hsize a (hmem_ne a (mem_append_left _ ha))
    have hys' : (h.stored bp hd p ⟨bp, h.size p⟩).chunks ys' = h.chunks ys' :=
      chunks_congr fun a ha => hsize a (hmem_ne a (by simp [ha]))
    have hp' := hsize p (hmem_ne p (by simp))
    rw [hfl', hsplit, chunks_append, chunks_append, chunks_cons, chunks_cons, chunks_cons, hxs', hys',
      hp', hsizebp]
    simp only [Chunk.weigh_append, Chunk.weigh_cons] at hrecut ⊢
    omega
  · have hmem : bp ∈ base :: fl' := by
      rw [hfl']
      simp
    exact (mem_cons.mp hmem).resolve_left hbp.base_lt.ne'
  · rw [hsizebp]
    exact hj.le_size

end Cases

theorem insert_joined (hfl : FreeList base h fl) (hbp : Beside base h fl bp)
    (hspace : h.InSpace (bp :: fl)) (hsplit : base :: fl = xs ++ p :: ys) (hp : p < bp)
    (hys : ∀ y ∈ ys, bp < y) : ∃ fl', Joined base bp h fl (h.insert bp p) fl' := by
  obtain ⟨ys', hj⟩ := hfl.joinNext hbp hspace hsplit hys
  have hnot := hfl.notMem hbp
  have hpmem : p ∈ base :: fl := by
    rw [hsplit]
    simp
  have hpbp : p ≠ bp := hp.ne
  have hle : p + HEADER * h.size p ≤ bp := by
    rcases mem_cons.mp hpmem with rfl | hmem
    · rw [hfl.base_size]
      exact hp.le
    · rcases hbp.apart p hmem with hap | hap
      · exact hap
      · unfold Chunk.stop at hap
        dsimp only at hap
        omega
  generalize hhd : h.joinNext bp (h.ptr p) = hd at hj
  have hprev : (h.set bp hd).joinPrev p bp =
      if p + HEADER * h.size p = bp then ⟨hd.ptr, h.size p + hd.size⟩ else ⟨bp, h.size p⟩ := by
    have hsize : (h.set bp hd).size p = h.size p := by
      rw [set_size, update_of_ne hpbp]
    have hbp' : (h.set bp hd).size bp = hd.size ∧ (h.set bp hd).ptr bp = hd.ptr := by
      rw [set_size, set_ptr, update_self, update_self]
      exact ⟨rfl, rfl⟩
    have hroom := hj.in_space
    unfold joinPrev
    rw [hsize, hbp'.1, hbp'.2, plus_eq (by omega)]
    by_cases hmeet : p + HEADER * h.size p = bp
    · have hsum : u32 (h.size p + hd.size) = h.size p + hd.size := by
        refine Nat.mod_eq_of_lt ?_
        unfold HEADER at *
        omega
      rw [if_pos hmeet, if_pos hmeet, hsum]
    · rw [if_neg hmeet, if_neg hmeet]
  have hinsert : h.insert bp p = h.stored bp hd p ((h.set bp hd).joinPrev p bp) := by
    unfold insert
    rw [hhd]
    rfl
  rw [hinsert, hprev]
  by_cases hmeet : p + HEADER * h.size p = bp
  · rw [if_pos hmeet]
    exact hj.prev hfl hbp hsplit hmeet
  · rw [if_neg hmeet]
    exact hj.apart hfl hbp hsplit (lt_of_le_of_ne hle hmeet)

/-- **`free`** returns with enough fuel, and its block becomes part of the list. -/
theorem free_joined (hfl : FreeList base h fl) (hbp : Beside base h fl bp)
    (hspace : h.InSpace (bp :: fl)) {ap : ℕ} (hap : ap - HEADER = bp) :
    ∃ h' fl', (∀ fuel, (base :: fl).length ≤ fuel → h.free fuel ap = some h') ∧
      Joined base bp h fl h' fl' := by
  obtain ⟨xs, p, ys, hsplit, hp, hys⟩ :=
    FreeList.exists_pred hfl.sorted hbp.base_lt (hfl.notMem hbp)
  obtain ⟨fl', hjoined⟩ := insert_joined hfl hbp hspace hsplit hp hys
  refine ⟨_, fl', fun fuel hfuel => ?_, hjoined⟩
  have hpmem : p ∈ base :: fl := by
    rw [hsplit]
    simp
  have hsearch : search h.ptr (h.stops bp) fuel h.freep = some p :=
    search_eq_some hfl.circle hfl.freep_mem hpmem
      (fun x hx => hfl.stops_iff hbp.base_lt hsplit hp hys hx) hfuel
  unfold free
  simp only [hap, hsearch]
  rfl

end Insert

/-! ## `malloc` -/

/-- What `malloc` does to the list when it returns the block at `q`: a part of a free block, or
all of it, is not in the list any more. -/
structure Taken (base nunits q : ℕ) (h : Heap) (fl : List ℕ) (h' : Heap) (fl' : List ℕ) : Prop where
  list : FreeList base h' fl'
  recut : Chunk.Recut HEADER (⟨q, nunits⟩ :: h'.chunks (base :: fl')) (h.chunks (base :: fl))
  size_eq : h'.size q = nunits
  frame : ∀ a, a ∉ base :: fl → a ≠ q → h'.size a = h.size a
  regions : h'.regions = h.regions

section Allocate

variable {base : ℕ} {h : Heap} {fl : List ℕ} {nunits prevp : ℕ}

/-- A block behind another one is not `base` if it has units. -/
theorem FreeList.exists_split (hfl : FreeList base h fl) (hprev : prevp ∈ base :: fl)
    (hpos : 0 < h.size (h.ptr prevp)) :
    ∃ xs ys, base :: fl = xs ++ prevp :: h.ptr prevp :: ys := by
  obtain ⟨xs, ys, hsplit⟩ := append_of_mem hprev
  rcases hfl.ptr_eq hsplit with ⟨ys', rfl⟩ | ⟨-, hlast⟩
  · exact ⟨xs, ys', hsplit⟩
  · rw [hlast, hfl.base_size] at hpos
    exact absurd hpos (lt_irrefl _)

/-- **Taking a block** of the list. -/
theorem allocate_taken (hfl : FreeList base h fl) (hspace : h.InSpace fl) (hprev : prevp ∈ base :: fl)
    (hpos : 0 < nunits) (hsize : nunits ≤ h.size (h.ptr prevp)) :
    ∃ q h' fl', h.allocate nunits prevp (h.ptr prevp) = (q + HEADER, h') ∧
      Taken base nunits q h fl h' fl' ∧ h.ptr prevp ∈ fl ∧ h.ptr prevp ≤ q ∧
      q + HEADER * nunits = h.ptr prevp + HEADER * h.size (h.ptr prevp) := by
  obtain ⟨xs, ys, hsplit⟩ := hfl.exists_split hprev (hpos.trans_le hsize)
  generalize hp : h.ptr prevp = p at hsplit hsize
  have hpmem : p ∈ fl := by
    have hmem : p ∈ base :: fl := by
      rw [hsplit]
      simp
    refine (mem_cons.mp hmem).resolve_left ?_
    rintro rfl
    rw [hfl.base_size] at hsize
    omega
  have hroom := hspace p hpmem
  have hgaps := hfl.gaps
  by_cases hexact : h.size p = nunits
  · -- the whole block is taken
    obtain ⟨fl', hfl'⟩ := exists_cons_eq hsplit ys
    have hsizes : (h.set prevp ⟨h.ptr p, h.size prevp⟩).size = h.size := by
      rw [set_size, update_eq_self]
    have hsub : (xs ++ prevp :: ys).Sublist (base :: fl) := by
      rw [hsplit]
      exact List.Sublist.append_left ((sublist_cons_self p ys).cons_cons prevp) xs
    refine ⟨p, { h.set prevp ⟨h.ptr p, h.size prevp⟩ with freep := prevp }, fl', ?_,
      ⟨.of ?_ ?_ ?_ ?_ ?_, ?_, ?_, fun a _ _ => congrFun hsizes a, rfl⟩, hpmem, le_rfl, ?_⟩
    · unfold allocate
      rw [if_pos hexact, plus_eq (by unfold HEADER at *; omega)]
      rfl
    · show Circle (h.set prevp ⟨h.ptr p, h.size prevp⟩).ptr (base :: fl')
      rw [hfl', set_ptr]
      exact Circle.remove (hsplit ▸ hfl.circle) (hsplit ▸ hfl.nodup)
    · show (base :: fl').Pairwise fun x y =>
        x + HEADER * (h.set prevp ⟨h.ptr p, h.size prevp⟩).size x < y
      rw [hfl', hsizes]
      exact hgaps.sublist hsub
    · exact (congrFun hsizes base).trans hfl.base_size
    · intro a ha hne
      have hmem : a ∈ base :: fl := hsub.subset (hfl' ▸ ha)
      exact (hfl.size_pos a ((mem_cons.mp hmem).resolve_left hne)).trans_eq
        (congrFun hsizes a).symm
    · show prevp ∈ base :: fl'
      rw [hfl']
      simp
    · intro w hw
      have hchunks : ∀ l, Heap.chunks { h.set prevp ⟨h.ptr p, h.size prevp⟩ with freep := prevp } l =
          h.chunks l := fun l => chunks_congr fun a _ => congrFun hsizes a
      rw [hchunks, hfl', hsplit, chunks_append, chunks_append, chunks_cons, chunks_cons, chunks_cons,
        hexact]
      simp only [Chunk.weigh_append, Chunk.weigh_cons]
      omega
    · exact (congrFun hsizes p).trans hexact
    · rw [hexact]
  · -- the end of the block is taken
    have hlt : nunits < h.size p := lt_of_le_of_ne hsize (Ne.symm hexact)
    obtain ⟨r, hr⟩ : ∃ r, h.size p = r + nunits := ⟨h.size p - nunits, by omega⟩
    have hrest : h.size p - nunits = r := by omega
    have hqlt : p < p + HEADER * r := by
      unfold HEADER
      omega
    have hptr : ((h.set p ⟨h.ptr p, r⟩).set (p + HEADER * r)
        ⟨(h.set p ⟨h.ptr p, r⟩).ptr (p + HEADER * r), nunits⟩).ptr = h.ptr := by
      rw [set_ptr, update_eq_self, set_ptr, update_eq_self]
    have hsizes : ((h.set p ⟨h.ptr p, r⟩).set (p + HEADER * r)
        ⟨(h.set p ⟨h.ptr p, r⟩).ptr (p + HEADER * r), nunits⟩).size =
        update (update h.size p r) (p + HEADER * r) nunits := by
      rw [set_size, set_size]
    generalize hh' : (h.set p ⟨h.ptr p, r⟩).set (p + HEADER * r)
        ⟨(h.set p ⟨h.ptr p, r⟩).ptr (p + HEADER * r), nunits⟩ = h' at hptr hsizes
    have hnot : p + HEADER * r ∉ base :: fl := by
      intro hmem
      have hsorted := hfl.sorted
      rw [hsplit, append_cons] at hsorted hmem
      have hmem' := FreeList.mem_of_lt hsorted hmem hqlt
      rw [hsplit, append_cons] at hgaps
      have hgap := (pairwise_cons.mp (pairwise_append.mp hgaps).2.1).1 _ hmem'
      unfold HEADER at *
      omega
    have hsizep : h'.size p = r := by
      rw [hsizes, update_of_ne hqlt.ne, update_self]
    have hsizeq : h'.size (p + HEADER * r) = nunits := by rw [hsizes, update_self]
    have hsame : ∀ a, a ≠ p → a ≠ p + HEADER * r → h'.size a = h.size a := by
      intro a hap haq
      rw [hsizes, update_of_ne haq, update_of_ne hap]
    have hle : ∀ a ∈ base :: fl, h'.size a ≤ h.size a := by
      intro a ha
      by_cases hap : a = p
      · rw [hap, hsizep]
        omega
      · exact (hsame a hap fun heq => hnot (heq ▸ ha)).le
    refine ⟨p + HEADER * r, { h' with freep := prevp }, fl, ?_,
      ⟨⟨?_, ?_, ?_, ?_, hprev⟩, ?_, hsizeq, ?_, ?_⟩, hpmem, hqlt.le, ?_⟩
    · have hsize₁ : (h.set p ⟨h.ptr p, h.size p - nunits⟩).size p = r := by
        rw [set_size, update_self, hrest]
      have hplus : plus p r = p + HEADER * r := plus_eq (by unfold HEADER at *; omega)
      have hplus' : plus (p + HEADER * r) 1 = p + HEADER * r + HEADER :=
        plus_eq (by unfold HEADER at *; omega)
      unfold allocate
      rw [if_neg hexact]
      simp only [hsize₁]
      rw [hplus, hplus', hrest, hh']
    · show Circle h'.ptr (base :: fl)
      rw [hptr]
      exact hfl.circle
    · refine List.Pairwise.imp_of_mem (fun {a b} ha _ hab => ?_) hgaps
      have := hle a ha
      show a + HEADER * h'.size a < b
      unfold HEADER at *
      omega
    · have := hle base mem_cons_self
      have := hfl.base_size
      show h'.size base = 0
      omega
    · intro a ha
      show 0 < h'.size a
      by_cases hap : a = p
      · rw [hap, hsizep]
        omega
      · rw [hsame a hap fun heq => hnot (heq ▸ mem_cons_of_mem _ ha)]
        exact hfl.size_pos a ha
    · intro w hw
      obtain ⟨zs, hsplit'⟩ : ∃ zs, base :: fl = zs ++ p :: ys :=
        ⟨xs ++ [prevp], by rw [hsplit, append_cons]⟩
      have hnodup := hfl.nodup
      rw [hsplit'] at hnodup hnot
      obtain ⟨-, hys, hne⟩ := nodup_append.mp hnodup
      have hbefore : Heap.chunks { h' with freep := prevp } zs = h.chunks zs :=
        chunks_congr fun a ha => hsame a (hne a ha p mem_cons_self) fun heq =>
          hnot (heq ▸ mem_append_left _ ha)
      have hafter : Heap.chunks { h' with freep := prevp } ys = h.chunks ys :=
        chunks_congr fun a ha => hsame a (fun heq => (nodup_cons.mp hys).1 (heq ▸ ha)) fun heq =>
          hnot (heq ▸ mem_append_right _ (mem_cons_of_mem _ ha))
      have hp' : Heap.size { h' with freep := prevp } p = r := hsizep
      have hadd := hw p r nunits
      rw [hsplit', chunks_append, chunks_append, chunks_cons, chunks_cons, hbefore, hafter, hp', hr]
      simp only [Chunk.weigh_append, Chunk.weigh_cons]
      omega
    · intro a ha haq
      refine hsame a (fun hap => ha ?_) haq
      rw [hap]
      exact mem_cons_of_mem _ hpmem
    · show h'.regions = h.regions
      rw [← hh']
      rfl
    · unfold HEADER at *
      omega

end Allocate

end Heap

end Umalloc
