/-
# Pre- and postconditions of calls that can stop

A call that returns a value or stops with a reason is an `Except`.  `Post r P E` says what is
known of its outcome in either case: a returned value satisfies `P`, a reason satisfies `E`.
The rules follow the shape of a program: `Post.bind` for a sequence, `Post.mono` for weakening.
`Sim R r r'` compares two calls: they stop for one reason, or return values that `R` relates.
Nothing here is about a particular program.
-/
import Mathlib

open List

namespace Outcome

universe u v

variable {ε : Type u} {α β : Type v}

/-- The outcome `r` returns a value with `P`, or stops for a reason with `E`. -/
def Post (r : Except ε α) (P : α → Prop) (E : ε → Prop) : Prop :=
  match r with
  | .ok a => P a
  | .error e => E e

variable {r : Except ε α} {P Q : α → Prop} {E F : ε → Prop}

@[simp] theorem post_ok {a : α} : Post (.ok a) P E ↔ P a := Iff.rfl

@[simp] theorem post_error {e : ε} : Post (.error e) P E ↔ E e := Iff.rfl

@[simp] theorem post_pure {a : α} : Post (pure a : Except ε α) P E ↔ P a := Iff.rfl

theorem post_map {Q : β → Prop} {f : α → β} : Post (r.map f) Q E ↔ Post r (fun a => Q (f a)) E := by
  cases r with
  | ok a => exact Iff.rfl
  | error e => exact Iff.rfl

/-- A sequence that returned: each of the two calls did. -/
theorem bind_eq_ok {f : α → Except ε β} {b : β} : r >>= f = .ok b ↔ ∃ a, r = .ok a ∧ f a = .ok b := by
  cases r with
  | ok a => exact ⟨fun h => ⟨a, rfl, h⟩, fun ⟨_, ha, h⟩ => Except.ok.inj ha ▸ h⟩
  | error e => exact ⟨nofun, nofun⟩

theorem map_eq_ok {f : α → β} {b : β} : r.map f = .ok b ↔ ∃ a, r = .ok a ∧ f a = b := by
  cases r with
  | ok a => exact ⟨fun h => ⟨a, rfl, Except.ok.inj h⟩, fun ⟨_, ha, h⟩ => by cases ha; rw [← h]; rfl⟩
  | error e => exact ⟨nofun, nofun⟩

theorem map_eq_error {f : α → β} {e : ε} : r.map f = .error e ↔ r = .error e := by
  cases r with
  | ok a => exact ⟨nofun, nofun⟩
  | error e' => exact ⟨fun h => congrArg _ (Except.error.inj h), fun h => congrArg _ (Except.error.inj h)⟩

theorem toOption_eq_some {a : α} : r.toOption = some a ↔ r = .ok a := by
  cases r with
  | ok b => exact ⟨fun h => congrArg _ (Option.some.inj h), fun h => congrArg _ (Except.ok.inj h)⟩
  | error e => exact ⟨nofun, nofun⟩

theorem post_ite {c : Prop} [Decidable c] {r' : Except ε α} :
    Post (if c then r else r') P E ↔ (c → Post r P E) ∧ (¬ c → Post r' P E) := by
  split
  next h => exact ⟨fun hr => ⟨fun _ => hr, fun hn => absurd h hn⟩, fun hr => hr.1 h⟩
  next h => exact ⟨fun hr => ⟨fun hp => absurd hp h, fun _ => hr⟩, fun hr => hr.2 h⟩

/-- What is known of a value that was returned. -/
theorem Post.of_ok (h : Post r P E) {a : α} (hr : r = .ok a) : P a := by
  rwa [hr] at h

/-- What is known of a reason for stopping. -/
theorem Post.of_error (h : Post r P E) {e : ε} (hr : r = .error e) : E e := by
  rwa [hr] at h

/-- A value is returned when no reason for stopping is possible. -/
theorem Post.exists_ok (h : Post r P E) (hE : ∀ e, ¬ E e) : ∃ a, r = .ok a ∧ P a := by
  cases r with
  | ok a => exact ⟨a, rfl, h⟩
  | error e => exact absurd h (hE e)

/-- Two things that are known of one outcome. -/
theorem Post.and (h : Post r P E) (h' : Post r Q F) : Post r (fun a => P a ∧ Q a) fun e => E e ∧ F e := by
  cases r with
  | ok a => exact ⟨h, h'⟩
  | error e => exact ⟨h, h'⟩

/-- Weakening. -/
theorem Post.mono (h : Post r P E) (hP : ∀ a, P a → Q a) (hE : ∀ e, E e → F e) : Post r Q F := by
  cases r with
  | ok a => exact hP a h
  | error e => exact hE e h

/-- **The sequence rule**: the second call is judged from each value the first can return. -/
theorem Post.bind {Q : β → Prop} {f : α → Except ε β} (h : Post r P F)
    (hf : ∀ a, P a → Post (f a) Q E) (hE : ∀ e, F e → E e) : Post (r >>= f) Q E := by
  cases r with
  | ok a => exact hf a h
  | error e => exact hE e h

/-! The same rules when the calls stop for reasons of one kind, and when it does not matter why they stop. -/

theorem Post.imp (h : Post r P E) (hP : ∀ a, P a → Q a) : Post r Q E := h.mono hP fun _ he => he

theorem Post.impAny (h : Post r P E) (hP : ∀ a, P a → Q a) : Post r Q fun _ => True :=
  h.mono hP fun _ _ => trivial

theorem Post.seq {Q : β → Prop} {f : α → Except ε β} (h : Post r P E) (hf : ∀ a, P a → Post (f a) Q E) :
    Post (r >>= f) Q E := h.bind hf fun _ he => he

theorem Post.bindAny {Q : β → Prop} {f : α → Except ε β} (h : Post r P E)
    (hf : ∀ a, P a → Post (f a) Q fun _ => True) : Post (r >>= f) Q fun _ => True :=
  h.bind hf fun _ _ => trivial

/-- **The loop rule**: an invariant that tells which elements have been visited. -/
theorem Post.foldlM {σ : Type v} {f : σ → α → Except ε σ} {I : List α → σ → Prop} (l : List α)
    (step : ∀ before a after, before ++ a :: after = l → ∀ s, I before s →
      Post (f s a) (I (before ++ [a])) E) {s : σ} (hs : I [] s) :
    Post (l.foldlM f s) (I l) E := by
  suffices h : ∀ after before : List α, before ++ after = l → ∀ s, I before s →
      Post (after.foldlM f s) (I l) E from h l [] rfl s hs
  intro after
  induction after with
  | nil =>
    intro before heq s hs
    rw [append_nil] at heq
    rw [← heq]
    exact hs
  | cons a after ih =>
    intro before heq s hs
    rw [foldlM_cons]
    refine (step before a after heq s hs).seq fun t ht => ?_
    exact ih (before ++ [a]) (by rw [append_assoc, ← heq]; rfl) t ht

/-! ## Two calls side by side -/

/-- The two outcomes stop for the same reason, or return related values. -/
inductive Sim (R : α → β → Prop) : Except ε α → Except ε β → Prop
  | ok {a : α} {b : β} (h : R a b) : Sim R (.ok a) (.ok b)
  | error (e : ε) : Sim R (.error e) (.error e)

variable {R : α → β → Prop} {r' : Except ε β}

/-- A value that the second call returns is matched by the first. -/
theorem Sim.exists_ok (h : Sim R r r') {b : β} (hr : r' = .ok b) : ∃ a, r = .ok a ∧ R a b := by
  cases h with
  | ok h =>
    cases hr
    exact ⟨_, rfl, h⟩
  | error e => cases hr

theorem Sim.mono {S : α → β → Prop} (h : Sim R r r') (hRS : ∀ a b, R a b → S a b) : Sim S r r' := by
  cases h with
  | ok h => exact .ok (hRS _ _ h)
  | error e => exact .error e

/-- What holds of the first call's value besides. -/
theorem Sim.and_post {P : α → Prop} {E : ε → Prop} (h : Sim R r r') (hr : Post r P E) :
    Sim (fun a b => R a b ∧ P a) r r' := by
  cases h with
  | ok h => exact .ok ⟨h, hr⟩
  | error e => exact .error e

/-- Sequences of related calls are related. -/
theorem Sim.bind {γ δ : Type v} {S : γ → δ → Prop} {f : α → Except ε γ} {g : β → Except ε δ}
    (h : Sim R r r') (hfg : ∀ a b, R a b → Sim S (f a) (g b)) : Sim S (r >>= f) (r' >>= g) := by
  cases h with
  | ok h => exact hfg _ _ h
  | error e => exact .error e

/-- Loops over one list with related rounds are related. -/
theorem Sim.foldlM {σ τ : Type v} {S : σ → τ → Prop} {f : σ → α → Except ε σ} {g : τ → α → Except ε τ}
    (hfg : ∀ s t a, S s t → Sim S (f s a) (g t a)) (l : List α) {s : σ} {t : τ} (h : S s t) :
    Sim S (l.foldlM f s) (l.foldlM g t) := by
  induction l generalizing s t with
  | nil => exact .ok h
  | cons a l ih =>
    rw [foldlM_cons, foldlM_cons]
    exact (hfg s t a h).bind fun _ _ h' => ih h'

end Outcome
