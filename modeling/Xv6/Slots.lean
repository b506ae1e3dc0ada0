/-
# Tables with free slots

A finite map kept as a list of slots, each free or holding a key and a value.  A key is looked up by
going through the slots from the first one; a new key goes into the first free slot, or after the
last slot if none is free; a key is removed by freeing its slot.  When no key stands twice, these are
the operations of a finite map.
-/
import Mathlib

open List

namespace Slots

variable {κ ν : Type*}

/-- Look `k` up: the number of its slot, counted from `i`, and its value. -/
@[simp] def find [DecidableEq κ] (k : κ) : ℕ → List (Option (κ × ν)) → Option (ℕ × ν)
  | _, [] => none
  | i, none :: l => find k (i + 1) l
  | i, some (k', v) :: l => if k = k' then some (i, v) else find k (i + 1) l

/-- The number of the first free slot, or the number of slots. -/
@[simp] def hole : List (Option (κ × ν)) → ℕ
  | [] => 0
  | none :: _ => 0
  | some _ :: l => hole l + 1

/-- Put an entry into the first free slot, or after the last one. -/
@[simp] def put (e : κ × ν) : List (Option (κ × ν)) → List (Option (κ × ν))
  | [] => [some e]
  | none :: l => some e :: l
  | some e' :: l => some e' :: put e l

/-- The keys, in the order of their slots. -/
def keys (l : List (Option (κ × ν))) : List κ := l.filterMap (Option.map Prod.fst)

@[simp] theorem keys_nil : keys ([] : List (Option (κ × ν))) = [] := rfl

@[simp] theorem keys_none (l : List (Option (κ × ν))) : keys (none :: l) = keys l := rfl

@[simp] theorem keys_some (k : κ) (v : ν) (l : List (Option (κ × ν))) :
    keys (some (k, v) :: l) = k :: keys l := rfl

theorem length_keys_le (l : List (Option (κ × ν))) : (keys l).length ≤ l.length :=
  length_filterMap_le _ _

/-! ## Free slots -/

theorem hole_le (l : List (Option (κ × ν))) : hole l ≤ l.length := by
  induction l with
  | nil => rfl
  | cons s l ih =>
    match s with
    | none => exact Nat.zero_le _
    | some _ => exact Nat.succ_le_succ ih

/-- The slot of `hole` is free, and no slot before it is. -/
theorem getElem?_hole (l : List (Option (κ × ν))) :
    (hole l < l.length → l[hole l]? = some none) ∧ ∀ j < hole l, l[j]? ≠ some none := by
  induction l with
  | nil => exact ⟨nofun, nofun⟩
  | cons s l ih =>
    match s with
    | none => exact ⟨fun _ => rfl, nofun⟩
    | some e =>
      refine ⟨fun h => by simpa [hole] using ih.1 (Nat.lt_of_succ_lt_succ h), fun j hj => ?_⟩
      match j with
      | 0 => simp
      | j + 1 => simpa using ih.2 j (Nat.lt_of_succ_lt_succ hj)

variable {l : List (Option (κ × ν))}

/-- A free slot is not before `hole`. -/
theorem hole_le_of_free {j : ℕ} (h : l[j]? = some none) :
    hole l ≤ j := not_lt.mp fun hj => (getElem?_hole l).2 j hj h

theorem put_eq_set {e : κ × ν} (h : hole l < l.length) :
    put e l = l.set (hole l) (some e) := by
  induction l with
  | nil => exact absurd h (Nat.not_lt_zero _)
  | cons s l ih =>
    match s with
    | none => rfl
    | some e' => rw [put, hole, set_cons_succ, ih (Nat.lt_of_succ_lt_succ h)]

theorem put_eq_append {e : κ × ν} (h : hole l = l.length) :
    put e l = l ++ [some e] := by
  induction l with
  | nil => rfl
  | cons s l ih =>
    match s with
    | none => exact absurd h (Nat.succ_ne_zero _).symm
    | some e' => rw [put, cons_append, ih (Nat.succ.inj h)]

theorem length_put (e : κ × ν) (l : List (Option (κ × ν))) :
    (put e l).length = max l.length (hole l + 1) := by
  have hle := hole_le l
  rcases Nat.eq_or_lt_of_le hle with heq | hlt
  · rw [put_eq_append heq, length_append, length_singleton]
    omega
  · rw [put_eq_set hlt, length_set]
    omega

/-- A new key is one key more. -/
theorem keys_put_perm (k : κ) (v : ν) (l : List (Option (κ × ν))) :
    (keys (put (k, v) l)).Perm (k :: keys l) := by
  induction l with
  | nil => exact List.Perm.refl _
  | cons s l ih =>
    match s with
    | none => exact List.Perm.refl _
    | some (k', v') =>
      rw [put, keys_some, keys_some]
      exact (ih.cons k').trans (List.Perm.swap k k' _)

/-- No key comes twice that did not. -/
theorem nodup_free (hl : (keys l).Nodup) (d : ℕ) :
    (keys (l.set d none)).Nodup := by
  refine List.Nodup.sublist ?_ hl
  induction l generalizing d with
  | nil => exact List.Sublist.refl _
  | cons s l ih =>
    match d, s with
    | 0, none => exact List.Sublist.refl _
    | 0, some (k, v) => exact sublist_cons_self _ _
    | d + 1, none =>
      rw [set_cons_succ, keys_none, keys_none]
      exact ih hl d
    | d + 1, some (k, v) =>
      rw [set_cons_succ, keys_some, keys_some]
      exact (ih (nodup_cons.mp hl).2 d).cons_cons k

/-- There is a new key among more keys than there are slots. -/
theorem exists_notMem {α : Type*} [Fintype α] {e : α → κ} (he : Function.Injective e) {ks : List κ}
    (h : ks.length < Fintype.card α) : ∃ a, e a ∉ ks := by
  classical
  by_contra hall
  simp only [not_exists, not_not] at hall
  have hsub : Finset.univ.image e ⊆ ks.toFinset := fun k hk => by
    obtain ⟨a, -, rfl⟩ := Finset.mem_image.mp hk
    exact mem_toFinset.mpr (hall a)
  have hcard := (Finset.card_le_card hsub).trans (toFinset_card_le ks)
  rw [Finset.card_image_of_injective _ he, Finset.card_univ] at hcard
  omega

/-! ## Looking up -/

variable [DecidableEq κ]

variable {k : κ} {i : ℕ}

theorem find_eq_none_iff :
    find k i l = none ↔ k ∉ keys l := by
  fun_induction find k i l with
  | case1 => simp
  | case2 _ _ ih => rwa [keys_none]
  | case3 => simp_all
  | case4 _ _ _ _ hk ih => simp [hk, ih]

variable {v : ν}

/-- What is found stands in its slot, and in none before it. -/
theorem getElem?_of_find {i j : ℕ} (h : find k i l = some (j, v)) :
    ∃ d, j = i + d ∧ l[d]? = some (some (k, v)) ∧
      ∀ d' < d, ∀ v', l[d']? ≠ some (some (k, v')) := by
  fun_induction find k i l with
  | case1 => cases h
  | case3 =>
    cases h
    exact ⟨0, rfl, by simp_all, nofun⟩
  | case2 _ _ ih =>
    obtain ⟨d, rfl, hd, hbefore⟩ := ih h
    refine ⟨d + 1, by omega, by simpa using hd, fun d' hd' v' => ?_⟩
    match d' with
    | 0 => simp
    | d' + 1 => simpa using hbefore d' (by omega) v'
  | case4 _ _ _ _ hk ih =>
    obtain ⟨d, rfl, hd, hbefore⟩ := ih h
    refine ⟨d + 1, by omega, by simpa using hd, fun d' hd' w => ?_⟩
    match d' with
    | 0 => simpa using fun h' => absurd h'.symm hk
    | d' + 1 => simpa using hbefore d' (by omega) w

/-! ## Putting -/

/-- **A new key is found in the slot it was put into.** -/
theorem find_put_self (v : ν) (h : find k i l = none) :
    find k i (put (k, v) l) = some (i + hole l, v) := by
  fun_induction find k i l with
  | case1 | case2 => simp [put, find, hole]
  | case3 => cases h
  | case4 _ _ _ _ hk ih =>
    rw [put, find, if_neg hk, ih h, hole]
    congr 2
    omega

/-- **The other keys stay.** -/
theorem find_put_of_ne {k k' : κ} (hne : k' ≠ k) (v : ν) (i : ℕ) (l : List (Option (κ × ν))) :
    find k' i (put (k, v) l) = find k' i l := by
  induction l generalizing i with
  | nil => simp [put, find, hne]
  | cons s l ih =>
    match s with
    | none => simp [put, find, hne]
    | some (k'', v') => rw [put, find, find, ih]

theorem nodup_put (v : ν) (h : find k i l = none) (hl : (keys l).Nodup) : (keys (put (k, v) l)).Nodup := by
  rw [(keys_put_perm k v l).nodup_iff]
  exact nodup_cons.mpr ⟨find_eq_none_iff.mp h, hl⟩

/-! ## Removing -/

/-- **A key is gone with its slot.** -/
theorem find_free_self {i d : ℕ} (hl : (keys l).Nodup) (h : find k i l = some (i + d, v)) :
    find k i (l.set d none) = none := by
  fun_induction find k i l generalizing d with
  | case1 => cases h
  | case2 _ _ ih =>
    obtain ⟨d', hd', -⟩ := getElem?_of_find h
    obtain rfl : d = d' + 1 := by omega
    rw [set_cons_succ, find]
    exact ih hl (h.trans (by congr 2))
  | case3 =>
    rw [Option.some.injEq, Prod.mk.injEq] at h
    obtain rfl : d = 0 := by omega
    rw [set_cons_zero, find, find_eq_none_iff]
    exact (nodup_cons.mp hl).1
  | case4 _ _ _ _ hk ih =>
    obtain ⟨d', hd', -⟩ := getElem?_of_find h
    obtain rfl : d = d' + 1 := by omega
    rw [set_cons_succ, find, if_neg hk]
    exact ih (nodup_cons.mp hl).2 (h.trans (by congr 2))

/-- **The other keys stay.** -/
theorem find_free_of_ne {k k' : κ} (hne : k' ≠ k) {d : ℕ} (i : ℕ) (h : l[d]? = some (some (k, v))) :
    find k' i (l.set d none) = find k' i l := by
  induction l generalizing i d with
  | nil => simp at h
  | cons s l ih =>
    match d with
    | 0 =>
      obtain rfl : s = some (k, v) := by simpa using h
      rw [set_cons_zero, find, find, if_neg hne]
    | d + 1 =>
      have hrest := ih (i + 1) (by simpa using h)
      match s with
      | none => rw [set_cons_succ, find, find, hrest]
      | some (k'', v') => rw [set_cons_succ, find, find, hrest]

end Slots
