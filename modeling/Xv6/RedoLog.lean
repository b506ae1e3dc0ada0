/-
# Redo logs

Stores are functions `κ → β` from addresses to contents.  A redo log is a header `hdr`, the
list of the addresses to be written, with one logged copy of the new contents for each.
`Recoverable` says that a store, together with its log, stands for a `target` store:
addresses off the header already agree with the target and every logged copy is what the
target holds at its address.  Installing logged copies in any order keeps it, so recovery can
be cut short and started again as often as one likes, and once every copy is installed the
store is the target.
-/
import Mathlib

open Function

namespace RedoLog

variable {κ β : Type*}

/-! ## Lists of writes -/

section Writes

variable [DecidableEq κ]

/-- Perform the writes in order. -/
def applyWrites (ws : List (κ × β)) (d : κ → β) : κ → β :=
  ws.foldl (fun d w => update d w.1 w.2) d

@[simp] theorem applyWrites_nil (d : κ → β) : applyWrites [] d = d := rfl

theorem applyWrites_append (ws vs : List (κ × β)) (d : κ → β) :
    applyWrites (ws ++ vs) d = applyWrites vs (applyWrites ws d) := by
  unfold applyWrites
  rw [List.foldl_append]

end Writes

/-! ## Stores that stand for a target -/

/-- The store `d` with the log `(hdr, copy)` stands for `target` on the addresses in `home`. -/
structure Recoverable (home : κ → Prop) (hdr : List κ) (copy : ℕ → β) (d target : κ → β) :
    Prop where
  /-- The log only rewrites home addresses. -/
  home_hdr : ∀ b ∈ hdr, home b
  /-- Off the header the store already agrees with the target. -/
  off_hdr : ∀ b, home b → b ∉ hdr → d b = target b
  /-- Each logged copy is what the target holds. -/
  copy_eq : ∀ i b, hdr[i]? = some b → copy i = target b

variable {home : κ → Prop} {hdr : List κ} {copy : ℕ → β} {d target : κ → β}

/-- With an empty header the store is the target. -/
theorem Recoverable.eq_target (h : Recoverable home [] copy d target) {b : κ} (hb : home b) :
    d b = target b :=
  h.off_hdr b hb List.not_mem_nil

/-- **Installing one logged copy** keeps the store recoverable to the same target. -/
theorem Recoverable.install [DecidableEq κ] (h : Recoverable home hdr copy d target) {i : ℕ} {b : κ}
    (hi : hdr[i]? = some b) :
    Recoverable home hdr copy (update d b (copy i)) target where
  home_hdr := h.home_hdr
  off_hdr := by
    intro c hc hnot
    have hne : c ≠ b := by
      rintro rfl
      exact hnot (List.mem_of_getElem? hi)
    rw [update_of_ne hne]
    exact h.off_hdr c hc hnot
  copy_eq := h.copy_eq

/-- The addresses installed so far hold what the target holds: `Installed t` says it of
the first `t` entries of the header. -/
def Installed (hdr : List κ) (t : ℕ) (d target : κ → β) : Prop :=
  ∀ i b, i < t → hdr[i]? = some b → d b = target b

theorem installed_zero : Installed hdr 0 d target := by
  intro i b hi
  omega

variable (h : Recoverable home hdr copy d target)

include h

/-- Installing entry `t` extends the installed part. -/
theorem Recoverable.installed_succ [DecidableEq κ] {t : ℕ} {b : κ} (ht : hdr[t]? = some b)
    (hinst : Installed hdr t d target) :
    Installed hdr (t + 1) (update d b (copy t)) target := by
  intro i c hi hc
  by_cases hcb : c = b
  · subst hcb
    rw [update_self]
    exact h.copy_eq t c ht
  · rw [update_of_ne hcb]
    have hit : i ≠ t := by
      rintro rfl
      rw [ht] at hc
      exact hcb (Option.some.inj hc).symm
    exact hinst i c (by omega) hc

/-- **Erasing the header** after every entry is installed: the store alone is the target. -/
theorem Recoverable.erase {t : ℕ} (ht : hdr.length ≤ t) (hinst : Installed hdr t d target)
    (copy' : ℕ → β) :
    Recoverable home [] copy' d target where
  home_hdr := by simp
  off_hdr := by
    intro b hb _
    by_cases hmem : b ∈ hdr
    · obtain ⟨i, hi, rfl⟩ := List.getElem_of_mem hmem
      exact hinst i _ (by omega) (List.getElem?_eq_getElem hi)
    · exact h.off_hdr b hb hmem
  copy_eq := by simp

/-- Recoverability only looks at the home addresses of the store and at the copies of the
entries of the header. -/
theorem Recoverable.congr {d' : κ → β} {copy' : ℕ → β} (hd : ∀ b, home b → d' b = d b)
    (hcopy : ∀ i, i < hdr.length → copy' i = copy i) :
    Recoverable home hdr copy' d' target where
  home_hdr := h.home_hdr
  off_hdr := fun b hb hnot => (hd b hb).trans (h.off_hdr b hb hnot)
  copy_eq := by
    intro i b hi
    rw [hcopy i (List.getElem?_eq_some_iff.mp hi).1]
    exact h.copy_eq i b hi

end RedoLog
