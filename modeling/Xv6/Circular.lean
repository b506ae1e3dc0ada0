/-
# Circular lists

A singly linked circular list is a map `next` on nodes with the list of the nodes in the order of
the links: each points to the next one, and the last to the first (`Circle`).  Where the list of
nodes begins does not matter (`Circle.rotate`), so what is done at a node is proved for the list
that begins there.  A loop that follows the links finds the one node at which it stops, wherever
it starts (`search_eq_some`).
-/
import Mathlib

open Function List

namespace Circular

variable {α : Type*} {next next' : α → α} {l xs ys : List α} {p q s t : α}

/-- Each node points to the next one in the list. -/
def Linked (next : α → α) (l : List α) : Prop := l.IsChain fun x y => next x = y

/-- The nodes `l` in this order are a circle. -/
def Circle (next : α → α) (l : List α) : Prop := Linked next (l ++ l.head?.toList)

/-- The last node of a linked list may point anywhere. -/
theorem Linked.congr (h : Linked next (l ++ [t])) (hl : ∀ x ∈ l, next' x = next x) :
    Linked next' (l ++ [t]) := by
  induction l with
  | nil => exact isChain_singleton t
  | cons x l ih =>
    have hrest := ih (List.IsChain.tail h) fun y hy => hl y (mem_cons_of_mem _ hy)
    have hhead : ∀ y ∈ (l ++ [t]).head?, next' x = y := by
      intro y hy
      rw [hl x mem_cons_self]
      exact (isChain_cons.mp h).1 y hy
    exact isChain_cons.mpr ⟨hhead, hrest⟩

/-- The first node points to the second. -/
theorem Linked.next_eq (h : Linked next (p :: q :: l)) : next p = q :=
  (isChain_cons_cons.mp h).1

/-! ## Turning a circle -/

theorem Circle.turn (h : Circle next (p :: l)) : Circle next (l ++ [p]) := by
  cases l with
  | nil => exact h
  | cons q l =>
    have htail : Linked next (q :: (l ++ [p])) := List.IsChain.tail h
    show Linked next ((q :: (l ++ [p])) ++ [q])
    refine isChain_append.mpr ⟨htail, isChain_singleton q, ?_⟩
    intro x hx y hy
    have hx' : x = p := by
      have hlast : (q :: (l ++ [p])).getLast? = some p := by
        rw [← cons_append, getLast?_concat]
      rw [hlast] at hx
      exact (Option.mem_some_iff.mp hx).symm
    have hy' : y = q := (Option.mem_some_iff.mp hy).symm
    rw [hx', hy']
    exact h.next_eq

/-- **A circle may be read from any node on.** -/
theorem Circle.rotate (h : Circle next (xs ++ ys)) : Circle next (ys ++ xs) := by
  induction xs generalizing ys with
  | nil => rwa [append_nil]
  | cons x xs ih =>
    have hturn : Circle next (xs ++ (ys ++ [x])) := by
      rw [← append_assoc]
      exact Circle.turn h
    have hrest := ih hturn
    rwa [append_assoc, singleton_append] at hrest

/-- The links of other nodes do not matter. -/
theorem Circle.congr (h : Circle next l) (hl : ∀ x ∈ l, next' x = next x) : Circle next' l := by
  cases l with
  | nil => exact isChain_nil
  | cons p l => exact Linked.congr (l := p :: l) h hl

/-! ## Changing a circle -/

section Change

variable [DecidableEq α]

/-- **A node is put behind `p`.** -/
theorem Circle.insert (h : Circle next (xs ++ p :: ys)) (hnodup : (xs ++ p :: ys).Nodup)
    (hq : q ∉ xs ++ p :: ys) :
    Circle (update (update next q (next p)) p q) (xs ++ p :: q :: ys) := by
  have hfront : Circle next (p :: (ys ++ xs)) := h.rotate
  rw [perm_append_comm.nodup_iff] at hnodup
  rw [perm_append_comm.mem_iff] at hq
  have hqp : q ≠ p := fun heq => hq (by rw [heq]; exact mem_cons_self)
  have hpl : p ∉ ys ++ xs := (nodup_cons.mp hnodup).1
  have hp : update (update next q (next p)) p q p = q := update_self ..
  have hq' : update (update next q (next p)) p q q = next p := by
    rw [update_of_ne hqp, update_self]
  have hrest : Linked (update (update next q (next p)) p q) (ys ++ xs ++ [p]) := by
    refine Linked.congr (List.IsChain.tail hfront) fun x hx => ?_
    have hxp : x ≠ p := fun heq => hpl (heq ▸ hx)
    have hxq : x ≠ q := fun heq => hq (heq ▸ mem_cons_of_mem _ hx)
    rw [update_of_ne hxp, update_of_ne hxq]
  refine Circle.rotate (show Circle _ (p :: q :: ys ++ xs) from isChain_cons_cons.mpr ⟨hp, ?_⟩)
  refine isChain_cons.mpr ⟨fun y hy => ?_, hrest⟩
  rw [hq']
  exact (isChain_cons.mp hfront).1 y hy

/-- **The node behind `p` is taken out.** -/
theorem Circle.remove (h : Circle next (xs ++ p :: q :: ys)) (hnodup : (xs ++ p :: q :: ys).Nodup) :
    Circle (update next p (next q)) (xs ++ p :: ys) := by
  have hfront : Circle next (p :: q :: (ys ++ xs)) := h.rotate
  rw [perm_append_comm.nodup_iff] at hnodup
  have hpl : p ∉ ys ++ xs := fun hmem => (nodup_cons.mp hnodup).1 (mem_cons_of_mem _ hmem)
  have htail : Linked next (q :: (ys ++ xs ++ [p])) := List.IsChain.tail hfront
  have hl : Linked (update next p (next q)) (ys ++ xs ++ [p]) :=
    Linked.congr (List.IsChain.tail htail) fun x hx =>
      update_of_ne (by rintro rfl; exact hpl hx) _ _
  refine Circle.rotate (show Circle _ (p :: ys ++ xs) from isChain_cons.mpr ⟨fun y hy => ?_, hl⟩)
  rw [update_self]
  exact (isChain_cons.mp htail).1 y hy

end Change

/-! ## Following a circle -/

/-- The first node at which `stop` holds, from `p` on. -/
def search (next : α → α) (stop : α → Bool) : ℕ → α → Option α
  | 0, _ => none
  | fuel + 1, p => if stop p then some p else search next stop fuel (next p)

/-- The way to a node goes through the nodes before it. -/
theorem search_of_linked {stop : α → Bool} (h : Linked next (l ++ [s])) (hl : ∀ x ∈ l, stop x = false)
    (hs : stop s = true) (hp : (l ++ [s]).head? = some p) {fuel : ℕ} (hfuel : l.length < fuel) :
    search next stop fuel p = some s := by
  induction l generalizing p fuel with
  | nil =>
    obtain ⟨fuel, rfl⟩ := Nat.exists_eq_add_one_of_ne_zero (Nat.ne_of_gt hfuel)
    obtain rfl : s = p := Option.some.inj hp
    rw [search, if_pos hs]
  | cons x l ih =>
    obtain ⟨fuel, rfl⟩ := Nat.exists_eq_add_one_of_ne_zero (Nat.ne_zero_of_lt hfuel)
    obtain rfl : x = p := Option.some.inj hp
    have hx : stop x = false := hl x mem_cons_self
    rw [search, hx, if_neg (by simp)]
    refine ih (List.IsChain.tail h) (fun y hy => hl y (mem_cons_of_mem _ hy)) ?_
      (Nat.lt_of_succ_lt_succ hfuel)
    obtain ⟨y, hy⟩ : ∃ y, (l ++ [s]).head? = some y := by
      cases l with
      | nil => exact ⟨s, rfl⟩
      | cons y l => exact ⟨y, rfl⟩
    rw [(isChain_cons.mp h).1 y hy, hy]

/-- **A search around a circle** finds the node at which it stops. -/
theorem search_eq_some {stop : α → Bool} (h : Circle next l) (hp : p ∈ l) (hs : s ∈ l)
    (hstop : ∀ x ∈ l, stop x = true ↔ x = s) {fuel : ℕ} (hfuel : l.length ≤ fuel) :
    search next stop fuel p = some s := by
  obtain ⟨xs, ys, rfl⟩ := append_of_mem hp
  have hturned : Linked next ((p :: ys ++ xs) ++ [p]) := h.rotate
  have hmem : s ∈ p :: ys ++ xs := by
    rw [mem_append] at hs ⊢
    exact hs.symm
  -- the nodes before `s`, up to its first occurrence
  obtain ⟨as, bs, hsplit, has⟩ := eq_append_cons_of_mem hmem
  have hlen : as.length < (xs ++ p :: ys).length := by
    have hlen := congrArg length hsplit
    simp only [length_append, length_cons] at hlen ⊢
    omega
  have hsub : ∀ x ∈ as ++ s :: bs, x ∈ xs ++ p :: ys := by
    intro x hx
    rw [← hsplit, mem_append] at hx
    exact mem_append.mpr hx.symm
  refine search_of_linked (l := as) ?_ (fun x hx => ?_) ((hstop s hs).mpr rfl) ?_
    (hlen.trans_le hfuel)
  · rw [hsplit, append_assoc, cons_append, ← singleton_append, ← append_assoc]
      at hturned
    exact (isChain_append.mp hturned).1
  · refine Bool.eq_false_iff.mpr fun hx' => has ?_
    rwa [← (hstop x (hsub x (mem_append_left _ hx))).mp hx']
  · have hhead : (p :: ys ++ xs).head? = some p := rfl
    rw [hsplit] at hhead
    cases as with
    | nil => exact hhead
    | cons x as => exact hhead

end Circular
