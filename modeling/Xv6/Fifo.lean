/-
# A queue in an array, with counters that wrap

An array of `N` slots holds the elements of a queue between two counters, the number of elements taken
out and the number put in.  The counters are kept modulo `M`, which is a multiple of `N`, so the slot of
an element is found from a counter that has wrapped as well as from the true count.

Nothing here is about a particular queue.
-/
import Mathlib

open List

namespace Fifo

variable {α : Type*} {N M r w : ℕ} {buf : ℕ → α} {q : List α} {a : α}

/-- The distance of two counters modulo `M`. -/
theorem distance {n : ℕ} (hr : r < M) (hn : n < M) : ((r + n) % M + M - r) % M = n := by
  obtain hsmall | hbig := Nat.lt_or_ge (r + n) M
  · rw [Nat.mod_eq_of_lt hsmall, show r + n + M - r = n + M by omega, Nat.add_mod_right,
      Nat.mod_eq_of_lt hn]
  · -- the counter that is ahead has wrapped once more
    have hwrap : (r + n) % M = r + n - M := by
      rw [Nat.mod_eq_sub_mod hbig, Nat.mod_eq_of_lt (by omega)]
    rw [hwrap, show r + n - M + M - r = n by omega, Nat.mod_eq_of_lt hn]

/-- The array holds the queue `q` between the counters `r` and `w`. -/
structure Holds (N M : ℕ) (buf : ℕ → α) (r w : ℕ) (q : List α) : Prop where
  lt : r < M
  le : q.length ≤ N
  count : w = (r + q.length) % M
  slot : ∀ k (h : k < q.length), buf ((r + k) % N) = q[k]

namespace Holds

/-- Both counters at the same place: an empty queue. -/
theorem empty (hr : r < M) (buf : ℕ → α) : Holds N M buf r r [] where
  lt := hr
  le := Nat.zero_le N
  count := (Nat.mod_eq_of_lt hr).symm
  slot := nofun

section

variable (h : Holds N M buf r w q)

include h

/-- The distance of the counters is the length of the queue. -/
theorem length_eq (hNM : N < M) : q.length = (w + M - r) % M := by
  rw [h.count, distance h.lt (h.le.trans_lt hNM)]

/-- The counters agree exactly when the queue is empty. -/
theorem eq_iff (hNM : N < M) : r = w ↔ q = [] := by
  have hlt := h.lt
  constructor
  · rintro rfl
    have hlen := h.length_eq hNM
    rw [Nat.add_sub_cancel_left, Nat.mod_self] at hlen
    exact eq_nil_of_length_eq_zero hlen
  · rintro rfl
    rw [h.count, length_nil, add_zero, Nat.mod_eq_of_lt hlt]

/-- The counters are `N` apart exactly when the queue is full. -/
theorem full_iff (hNM : N < M) : w = (r + N) % M ↔ q.length = N := by
  constructor
  · intro hfull
    rw [h.length_eq hNM, hfull, distance h.lt hNM]
  · intro hfull
    rw [h.count, hfull]

/-- **An element is put in.** -/
theorem push (hdvd : N ∣ M) (hroom : q.length < N) (a : α) :
    Holds N M (Function.update buf (w % N) a) r ((w + 1) % M) (q ++ [a]) := by
  have hslot : w % N = (r + q.length) % N := by rw [h.count, Nat.mod_mod_of_dvd _ hdvd]
  refine ⟨h.lt, by simpa using hroom, ?_, fun k hk => ?_⟩
  · rw [h.count, Nat.mod_add_mod, length_append, length_singleton, add_assoc]
  · rw [length_append, length_singleton] at hk
    obtain hold | rfl := Nat.lt_succ_iff_lt_or_eq.mp hk
    · -- two elements of the queue are less than `N` apart, so their slots differ
      have hne : (r + k) % N ≠ w % N := by
        rw [hslot]
        intro heq
        have hmod : k ≡ q.length [MOD N] := Nat.ModEq.add_left_cancel' r heq
        have hk' := Nat.ModEq.eq_of_lt_of_lt hmod (by omega) hroom
        omega
      rw [Function.update_of_ne hne, h.slot k hold, getElem_append_left hold]
    · rw [← hslot, Function.update_self, getElem_append_right le_rfl]
      simp

end

/-- **An element is taken out.** -/
theorem pop (h : Holds N M buf r w (a :: q)) (hdvd : N ∣ M) :
    buf (r % N) = a ∧ Holds N M buf ((r + 1) % M) w q := by
  have hlt := h.lt
  refine ⟨h.slot 0 (Nat.succ_pos _), Nat.mod_lt _ (by omega), ?_, ?_, fun k hk => ?_⟩
  · exact (Nat.le_succ _).trans h.le
  · rw [h.count, length_cons, Nat.mod_add_mod]
    congr 1
    omega
  · have hnext := h.slot (k + 1) (Nat.succ_lt_succ hk)
    rw [getElem_cons_succ] at hnext
    rw [← hnext, ← Nat.mod_mod_of_dvd ((r + 1) % M + k) (dvd_refl N), Nat.add_mod ((r + 1) % M),
      Nat.mod_mod_of_dvd _ hdvd, ← Nat.add_mod, Nat.mod_mod, show r + 1 + k = r + (k + 1) by omega]

/-- **The last element is taken back.** -/
theorem unpush (h : Holds N M buf r w (q ++ [a])) (hdvd : N ∣ M) :
    buf ((w + M - 1) % M % N) = a ∧ Holds N M buf r ((w + M - 1) % M) q := by
  have hlt := h.lt
  have hlen : (q ++ [a]).length = q.length + 1 := by simp
  have hback : (w + M - 1) % M = (r + q.length) % M := by
    rw [h.count, hlen, Nat.add_sub_assoc (by omega), Nat.mod_add_mod,
      show r + (q.length + 1) + (M - 1) = r + q.length + M by omega, Nat.add_mod_right]
  have hle : q.length + 1 ≤ N := hlen ▸ h.le
  refine ⟨?_, hlt, (Nat.le_succ _).trans hle, hback, fun k hk => ?_⟩
  · rw [hback, Nat.mod_mod_of_dvd _ hdvd, h.slot q.length (by omega),
      getElem_append_right le_rfl]
    simp
  · rw [h.slot k (by omega), getElem_append_left hk]

/-- The counter between the two parts of a queue. -/
theorem split {q₁ q₂ : List α} (h : Holds N M buf r w (q₁ ++ q₂)) (hdvd : N ∣ M) :
    Holds N M buf r ((r + q₁.length) % M) q₁ ∧ Holds N M buf ((r + q₁.length) % M) w q₂ := by
  have hlt := h.lt
  have hle := h.le
  have hlen : (q₁ ++ q₂).length = q₁.length + q₂.length := length_append
  refine ⟨⟨hlt, by omega, rfl, fun k hk => ?_⟩, Nat.mod_lt _ (by omega), by omega, ?_, fun k hk => ?_⟩
  · rw [h.slot k (by omega), getElem_append_left hk]
  · rw [h.count, hlen, Nat.mod_add_mod, add_assoc]
  · have hslot : ((r + q₁.length) % M + k) % N = (r + (q₁.length + k)) % N := by
      rw [Nat.add_mod, Nat.mod_mod_of_dvd _ hdvd, ← Nat.add_mod, add_assoc]
    rw [hslot, h.slot (q₁.length + k) (by omega), getElem_append_right (by omega)]
    simp

end Holds

end Fifo
