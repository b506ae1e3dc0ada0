/-
# Rings of linked nodes

A doubly linked circular list through a head node, as a pair of maps `next` and `prev` on the nodes.
The contents of a ring is the list of the nodes after the head, in the order of `next`.  Two
operations change the pointers: a node is taken out (`unlink`), and a node that is not in the ring is
put behind the head (`pushFront`).  A loop that follows the pointers from the head until it is back
there goes through the contents, in order with `next` and in reverse order with `prev`.
-/
import Mathlib

open Function List

namespace Ring

variable {α : Type*}

/-- The pointers of the nodes. -/
structure Links (α : Type*) where
  next : α → α
  prev : α → α

/-- Each node of the list points to the one after it and back. -/
def Linked (k : Links α) (l : List α) : Prop :=
  l.IsChain fun x y => k.next x = y ∧ k.prev y = x

/-- The ring through `head` has the contents `l`. -/
structure Contents (k : Links α) (head : α) (l : List α) : Prop where
  linked : Linked k (head :: l ++ [head])
  nodup : (head :: l).Nodup

/-! ## Segments -/

/-- A segment stays linked when only the pointers out of it change. -/
theorem Linked.congr {k k' : Links α} {l : List α} (h : Linked k l)
    (hnext : ∀ x ∈ l.dropLast, k'.next x = k.next x)
    (hprev : ∀ x ∈ l.tail, k'.prev x = k.prev x) : Linked k' l := by
  unfold Linked at *
  induction l with
  | nil => exact isChain_nil
  | cons x l ih =>
    cases l with
    | nil => exact isChain_singleton x
    | cons y l =>
      obtain ⟨hxy, hrest⟩ := isChain_cons_cons.mp h
      refine isChain_cons_cons.mpr ⟨⟨?_, ?_⟩, ih hrest (fun z hz => ?_) fun z hz => ?_⟩
      · rw [hnext x (by simp), hxy.1]
      · rw [hprev y (by simp), hxy.2]
      · exact hnext z (by simp [hz])
      · exact hprev z (by simpa using .inr hz)

/-- Two segments join where the last node of the one and the first node of the other point to each
other. -/
theorem Linked.append {k : Links α} {as bs : List α} {u v : α} (has : Linked k (as ++ [u]))
    (hbs : Linked k (v :: bs)) (hnext : k.next u = v) (hprev : k.prev v = u) :
    Linked k (as ++ [u] ++ v :: bs) := by
  refine isChain_append.mpr ⟨has, hbs, fun x hx y hy => ?_⟩
  rw [getLast?_concat, Option.mem_some_iff] at hx
  rw [head?_cons, Option.mem_some_iff] at hy
  subst hx hy
  exact ⟨hnext, hprev⟩

section Operations

variable [DecidableEq α] {k : Links α} {head b : α} {l l₁ l₂ : List α}

/-- Take `b` out: its neighbours point to each other. -/
def unlink (k : Links α) (b : α) : Links α where
  next := update k.next (k.prev b) (k.next b)
  prev := update k.prev (k.next b) (k.prev b)

/-- Put `b` behind the head. -/
def pushFront (k : Links α) (head b : α) : Links α where
  next := update (update k.next b (k.next head)) head b
  prev := update (update k.prev b head) (k.next head) b

/-- **`unlink` removes a node.** -/
theorem Contents.unlink (h : Contents k head (l₁ ++ b :: l₂)) :
    Contents (unlink k b) head (l₁ ++ l₂) := by
  have hnodup := h.nodup
  have hlink := h.linked
  -- the neighbours of `b`, of which one may be the head
  obtain ⟨as, u, hu⟩ : ∃ as u, head :: l₁ = as ++ [u] :=
    ⟨_, _, (dropLast_append_getLast (cons_ne_nil head l₁)).symm⟩
  obtain ⟨v, bs, hv⟩ : ∃ v bs, l₂ ++ [head] = v :: bs := exists_cons_of_ne_nil (by simp)
  have hsplit : head :: (l₁ ++ b :: l₂) ++ [head] = (as ++ [u]) ++ b :: v :: bs := by
    rw [← hu, ← hv]
    simp
  rw [hsplit, Linked, isChain_append] at hlink
  obtain ⟨hleft, hright, hjoin⟩ := hlink
  obtain ⟨hb, hright⟩ := isChain_cons_cons.mp hright
  have hprev : k.prev b = u := (hjoin u (by simp) b rfl).2
  have hnext : k.next b = v := hb.1
  have hmemu : u ∈ head :: l₁ := by simp [hu]
  have hmemv : v ∈ l₂ ++ [head] := by simp [hv]
  have hnot : ∀ x ∈ head :: l₁, x ∉ l₂ := by
    intro x hx hx'
    have hsub : (head :: (l₁ ++ b :: l₂)) = (head :: l₁) ++ b :: l₂ := rfl
    rw [hsub, nodup_append] at hnodup
    exact hnodup.2.2 x hx x (mem_cons_of_mem b hx') rfl
  have hdup : (as ++ [u]).Nodup ∧ (v :: bs).Nodup ∧ v ∉ l₁ := by
    rw [← hu, ← hv]
    simp only [nodup_cons, mem_append, mem_cons, nodup_append] at hnodup ⊢
    grind
  refine ⟨?_, ?_⟩
  · rw [show head :: (l₁ ++ l₂) ++ [head] = as ++ [u] ++ v :: bs by rw [← hu, ← hv]; simp]
    refine Linked.append (Linked.congr hleft (fun x hx => ?_) fun x hx => ?_)
      (Linked.congr hright (fun x hx => ?_) fun x hx => ?_) ?_ ?_
    all_goals simp only [Ring.unlink, hprev, hnext]
    · rw [dropLast_concat] at hx
      refine update_of_ne ?_ _ _
      rintro rfl
      exact (nodup_append.mp hdup.1).2.2 x hx x (by simp) rfl
    · rw [← hu, tail_cons] at hx
      refine update_of_ne ?_ _ _
      rintro rfl
      exact hdup.2.2 hx
    · rw [← hv, dropLast_concat] at hx
      refine update_of_ne ?_ _ _
      rintro rfl
      exact hnot x hmemu hx
    · rw [tail_cons] at hx
      refine update_of_ne ?_ _ _
      rintro rfl
      have := hdup.2.1
      simp [hx] at this
    · exact update_self ..
    · exact update_self ..
  · refine hnodup.sublist (List.Sublist.cons_cons head ?_)
    exact List.Sublist.append_left (sublist_cons_self b l₂) l₁

/-- **`pushFront` adds a node in front.** -/
theorem Contents.pushFront (h : Contents k head l) (hb : b ∉ head :: l) :
    Contents (pushFront k head b) head (b :: l) := by
  have hnodup := h.nodup
  obtain ⟨w, ws, hw⟩ : ∃ w ws, l ++ [head] = w :: ws := exists_cons_of_ne_nil (by simp)
  have hlink := h.linked
  rw [cons_append, hw] at hlink
  obtain ⟨⟨hnext, -⟩, hrest⟩ := isChain_cons_cons.mp hlink
  have hbh : b ≠ head := fun heq => hb (by simp [heq])
  have hnot : ∀ x ∈ w :: ws, x ≠ b := by
    intro x hx heq
    rw [← hw, mem_append, mem_singleton] at hx
    rw [mem_cons, or_comm] at hb
    exact hb (heq ▸ hx)
  have hbw : b ≠ w := (hnot w mem_cons_self).symm
  have hdup : (w :: ws).Nodup := by
    rw [← hw]
    simp only [nodup_cons, nodup_append] at hnodup ⊢
    grind
  refine ⟨?_, ?_⟩
  · rw [cons_append, cons_append, hw]
    refine isChain_cons_cons.mpr ⟨⟨?_, ?_⟩, isChain_cons_cons.mpr ⟨⟨?_, ?_⟩,
      Linked.congr hrest (fun x hx => ?_) fun x hx => ?_⟩⟩
    all_goals simp only [Ring.pushFront, hnext]
    · exact update_self ..
    · rw [update_of_ne hbw, update_self]
    · rw [update_of_ne hbh, update_self]
    · exact update_self ..
    · rw [← hw, dropLast_concat] at hx
      have hxh : x ≠ head := by
        rintro rfl
        simp [hx] at hnodup
      have hxb : x ≠ b := by
        rintro rfl
        simp [hx] at hb
      rw [update_of_ne hxh, update_of_ne hxb]
    · rw [tail_cons] at hx
      have hxw : x ≠ w := by
        rintro rfl
        simp [hx] at hdup
      rw [update_of_ne hxw, update_of_ne (hnot x (mem_cons_of_mem w hx))]
  · simp only [nodup_cons, mem_cons] at hnodup hb ⊢
    grind

/-- A node of the ring goes to the front. -/
theorem Contents.moveToFront (h : Contents k head (l₁ ++ b :: l₂)) :
    Contents (Ring.pushFront (Ring.unlink k b) head b) head (b :: (l₁ ++ l₂)) := by
  refine h.unlink.pushFront ?_
  have hnodup := h.nodup
  simp only [nodup_cons, nodup_append, mem_append, mem_cons] at hnodup ⊢
  grind

end Operations

/-! ## Loops over a ring -/

section Search

variable [DecidableEq α] {k : Links α} {head : α} {l : List α}

/-- A loop that follows the pointers `f` until a node passes the test or is the head. -/
def search (f : α → α) (head : α) (test : α → Bool) : ℕ → α → Option α
  | 0, _ => none
  | fuel + 1, x => if x = head then none else if test x then some x else search f head test fuel (f x)

theorem search_eq {f : α → α} (test : α → Bool) {x : α} {n : ℕ} (hn : l.length < n)
    (hhead : head ∉ l) (hchain : (x :: l ++ [head]).IsChain fun a b => f a = b) :
    search f head test n (f x) = l.find? test := by
  induction l generalizing x n with
  | nil =>
    obtain ⟨n, rfl⟩ := Nat.exists_eq_succ_of_ne_zero (by omega : n ≠ 0)
    have hx : f x = head := by simpa using hchain
    simp [search, hx]
  | cons y l ih =>
    obtain ⟨n, rfl⟩ := Nat.exists_eq_succ_of_ne_zero (by omega : n ≠ 0)
    obtain ⟨hx, hrest⟩ := isChain_cons_cons.mp hchain
    rw [mem_cons, not_or] at hhead
    rw [search, hx, if_neg (Ne.symm hhead.1), find?_cons]
    cases htest : test y with
    | true => rfl
    | false =>
      rw [if_neg Bool.false_ne_true]
      exact ih (by simpa using hn) hhead.2 hrest

/-- **Forward**: the loop along `next` finds the first node of the contents that passes the test. -/
theorem Contents.search_next (h : Contents k head l) (test : α → Bool) {n : ℕ} (hn : l.length < n) :
    search k.next head test n (k.next head) = l.find? test := by
  refine search_eq test hn (nodup_cons.mp h.nodup).1 ?_
  exact List.IsChain.imp (fun _ _ hab => hab.1) h.linked

/-- **Backward**: the loop along `prev` finds the last one. -/
theorem Contents.search_prev (h : Contents k head l) (test : α → Bool) {n : ℕ} (hn : l.length < n) :
    search k.prev head test n (k.prev head) = l.reverse.find? test := by
  refine search_eq test (by simpa using hn) (by simpa using (nodup_cons.mp h.nodup).1) ?_
  rw [show head :: l.reverse ++ [head] = (head :: l ++ [head]).reverse by simp,
    isChain_reverse]
  exact List.IsChain.imp (fun _ _ hab => hab.2) h.linked

end Search

end Ring
