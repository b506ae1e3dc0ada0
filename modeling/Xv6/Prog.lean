/-
# Programs over operations

A program that calls operations whose meaning is given elsewhere: a result, or an operation and what
follows each answer to it.  The same program can be judged in two ways.

* Over all answers: a `Path` is one way through the program, with the answers it got, and `Net w p n`
  says that the operations on every path weigh `n` together.
* Over a machine: `exec` answers an operation in a state, or stops.  `run` executes the program, and
  `wp` is the weakest precondition for it, under a side condition on the states in which operations are
  called.

Nothing here is about a particular set of operations.
-/
import Xv6.Outcome

open Outcome

/-- A result, or an operation and what follows each answer to it. -/
inductive Prog (Op : Type) (Ans : Op → Type) (α : Type) where
  | ret (a : α)
  | op (o : Op) (k : Ans o → Prog Op Ans α)

namespace Prog

variable {Op : Type} {Ans : Op → Type} {α β : Type}

/-- One program after another. -/
def bind : Prog Op Ans α → (α → Prog Op Ans β) → Prog Op Ans β
  | .ret a, f => f a
  | .op o k, f => .op o fun r => (k r).bind f

instance : Monad (Prog Op Ans) where
  pure := .ret
  bind := bind

/-- The program that calls one operation. -/
def call (o : Op) : Prog Op Ans (Ans o) := .op o .ret

theorem ret_bind (a : α) (f : α → Prog Op Ans β) : (pure a : Prog Op Ans α) >>= f = f a := rfl

theorem op_bind (o : Op) (k : Ans o → Prog Op Ans α) (f : α → Prog Op Ans β) :
    Prog.op o k >>= f = .op o fun r => k r >>= f := rfl

/-! ## Paths -/

/-- One way through a program: the operations with their answers, and the result. -/
inductive Path : Prog Op Ans α → List (Sigma Ans) → α → Prop
  | ret (a : α) : Path (.ret a) [] a
  | op {o : Op} {k : Ans o → Prog Op Ans α} (r : Ans o) {l : List (Sigma Ans)} {a : α}
      (h : Path (k r) l a) : Path (.op o k) (⟨o, r⟩ :: l) a

variable {l : List (Sigma Ans)}

theorem path_ret {a b : α} :
    Path (.ret a : Prog Op Ans α) l b ↔ l = [] ∧ b = a := by
  constructor
  · rintro ⟨⟩
    exact ⟨rfl, rfl⟩
  · rintro ⟨rfl, rfl⟩
    exact .ret b

variable {o : Op}

theorem path_op {k : Ans o → Prog Op Ans α} {a : α} :
    Path (.op o k) l a ↔ ∃ r l', l = ⟨o, r⟩ :: l' ∧ Path (k r) l' a := by
  constructor
  · rintro ⟨⟩
    exact ⟨_, _, rfl, ‹_›⟩
  · rintro ⟨r, l', rfl, h⟩
    exact .op r h

theorem path_call_bind {f : Ans o → Prog Op Ans β} {b : β} :
    Path (call o >>= f) l b ↔ ∃ r l', l = ⟨o, r⟩ :: l' ∧ Path (f r) l' b := path_op

variable {p : Prog Op Ans α} {f : α → Prog Op Ans β}

/-- A path through a sequence is a path through each part. -/
theorem path_bind {b : β} :
    Path (p >>= f) l b ↔ ∃ l₁ a l₂, l = l₁ ++ l₂ ∧ Path p l₁ a ∧ Path (f a) l₂ b := by
  induction p generalizing l with
  | ret a =>
    constructor
    · intro h
      exact ⟨[], a, l, rfl, .ret a, h⟩
    · rintro ⟨l₁, a', l₂, rfl, h₁, h₂⟩
      obtain ⟨rfl, rfl⟩ := path_ret.mp h₁
      exact h₂
  | op o k ih =>
    rw [op_bind, path_op]
    constructor
    · rintro ⟨r, l', rfl, h⟩
      obtain ⟨l₁, a, l₂, rfl, h₁, h₂⟩ := (ih r).mp h
      exact ⟨_, a, l₂, rfl, .op r h₁, h₂⟩
    · rintro ⟨l₁, a, l₂, rfl, h₁, h₂⟩
      obtain ⟨r, l', rfl, hk⟩ := path_op.mp h₁
      exact ⟨r, l' ++ l₂, rfl, (ih r).mpr ⟨l', a, l₂, rfl, hk, h₂⟩⟩

/-- The answers determine a path and where it ends. -/
theorem Path.eq_of_append {l l' x x' : List (Sigma Ans)} {a a' : α} (h : Path p l a)
    (h' : Path p l' a') (heq : l ++ x = l' ++ x') : l = l' ∧ a = a' := by
  induction p generalizing l l' with
  | ret b =>
    obtain ⟨rfl, rfl⟩ := path_ret.mp h
    obtain ⟨rfl, rfl⟩ := path_ret.mp h'
    exact ⟨rfl, rfl⟩
  | op o k ih =>
    obtain ⟨r, m, rfl, hk⟩ := path_op.mp h
    obtain ⟨r', m', rfl, hk'⟩ := path_op.mp h'
    obtain ⟨hr, htail⟩ := List.cons.inj heq
    cases hr
    obtain ⟨rfl, rfl⟩ := ih r hk hk' htail
    exact ⟨rfl, rfl⟩

/-- What the operations on a path weigh together. -/
def weight (w : Op → ℤ) (l : List (Sigma Ans)) : ℤ := (l.map fun x => w x.1).sum

variable {w : Op → ℤ}

@[simp] theorem weight_nil : weight w ([] : List (Sigma Ans)) = 0 := rfl

@[simp] theorem weight_cons (x : Sigma Ans) (l : List (Sigma Ans)) :
    weight w (x :: l) = w x.1 + weight w l := by
  simp [weight]

@[simp] theorem weight_append (l₁ l₂ : List (Sigma Ans)) :
    weight w (l₁ ++ l₂) = weight w l₁ + weight w l₂ := by
  simp [weight]

/-! ## Execution -/

variable {σ ε : Type}

/-- Execute a program, with operations answered by `exec`. -/
def run (exec : σ → (o : Op) → Except ε (Ans o × σ)) : Prog Op Ans α → σ → Except ε (α × σ)
  | .ret a, s => .ok (a, s)
  | .op o k, s =>
    match exec s o with
    | .ok (r, s) => run exec (k r) s
    | .error e => .error e

/-- A sequence is executed one part after the other. -/
theorem run_bind (exec : σ → (o : Op) → Except ε (Ans o × σ)) (p : Prog Op Ans α)
    (f : α → Prog Op Ans β) (s : σ) :
    run exec (p >>= f) s = (run exec p s).bind fun r => run exec (f r.1) r.2 := by
  induction p generalizing s with
  | ret a => rfl
  | op o k ih =>
    rw [op_bind, run, run]
    cases exec s o with
    | ok r => exact ih r.1 r.2
    | error e => rfl

/-- Every operation that the program calls is called in a state that meets the condition. -/
def Meets (exec : σ → (o : Op) → Except ε (Ans o × σ)) (K : σ → Op → Prop) :
    Prog Op Ans α → σ → Prop
  | .ret _, _ => True
  | .op o k, s => K s o ∧ ∀ r s', exec s o = .ok (r, s') → Meets exec K (k r) s'

/-- **The weakest precondition**: operations may be taken to be called under the condition `K`; the
program ends with `Q`, or stops for a reason with `E`. -/
def wp (exec : σ → (o : Op) → Except ε (Ans o × σ)) (K : σ → Op → Prop) (E : ε → Prop)
    (Q : α → σ → Prop) : Prog Op Ans α → σ → Prop
  | .ret a, s => Q a s
  | .op o k, s => K s o → Post (exec s o) (fun r => wp exec K E Q (k r.1) r.2) E

variable {exec : σ → (o : Op) → Except ε (Ans o × σ)} {K : σ → Op → Prop} {E : ε → Prop}
  {Q R : α → σ → Prop} {s : σ}

@[simp] theorem wp_pure (a : α) : wp exec K E Q (pure a : Prog Op Ans α) s ↔ Q a s := Iff.rfl

/-- An operation whose answer is known, and what follows it. -/
theorem wp_call_bind {f : Ans o → Prog Op Ans α} {r : Ans o} {s' : σ}
    (hexec : exec s o = .ok (r, s')) (h : wp exec K E Q (f r) s') :
    wp exec K E Q (call o >>= f) s := by
  refine fun _ => ?_
  rw [hexec]
  exact h

/-- **The sequence rule.** -/
theorem wp_bind {Q : β → σ → Prop} :
    wp exec K E Q (p >>= f) s ↔ wp exec K E (fun a s => wp exec K E Q (f a) s) p s := by
  induction p generalizing s with
  | ret a => rfl
  | op o k ih =>
    have hk : ∀ r : Ans o × σ, wp exec K E Q (k r.1 >>= f) r.2 ↔
        wp exec K E (fun a s => wp exec K E Q (f a) s) (k r.1) r.2 := fun r => ih r.1
    constructor
    · intro h hK
      exact (h hK).imp fun r hr => (hk r).mp hr
    · intro h hK
      exact (h hK).imp fun r hr => (hk r).mpr hr

/-- **Weakening.** -/
theorem wp.mono (h : wp exec K E Q p s) (hQ : ∀ a s, Q a s → R a s) :
    wp exec K E R p s := by
  induction p generalizing s with
  | ret a => exact hQ a s h
  | op o k ih => exact fun hK => (h hK).imp fun r hr => ih r.1 hr

/-- Weakening, of the reasons for stopping too. -/
theorem wp.weaken {F : ε → Prop} (h : wp exec K E Q p s) (hQ : ∀ a s, Q a s → R a s)
    (hE : ∀ e, E e → F e) : wp exec K F R p s := by
  induction p generalizing s with
  | ret a => exact hQ a s h
  | op o k ih => exact fun hK => (h hK).mono (fun r hr => ih r.1 hr) hE

/-- **Two things that are known of one program.** -/
theorem wp.and {F : ε → Prop} (h : wp exec K E Q p s) (h' : wp exec K F R p s) :
    wp exec K (fun e => E e ∧ F e) (fun a s => Q a s ∧ R a s) p s := by
  induction p generalizing s with
  | ret a => exact ⟨h, h'⟩
  | op o k ih =>
    exact fun hK => ((h hK).and (h' hK)).imp fun r hr => ih r.1 hr.1 hr.2

/-- A sequence, given what its first part ends with. -/
theorem wp.bind {Q : β → σ → Prop} (h : wp exec K E R p s)
    (hf : ∀ a s, R a s → wp exec K E Q (f a) s) :
    wp exec K E Q (p >>= f) s := wp_bind.mpr (h.mono hf)

/-- A sequence whose first part ends in errors of its own. -/
theorem wp.seq {F : ε → Prop} {Q : β → σ → Prop} (h : wp exec K F R p s) (hE : ∀ e, F e → E e)
    (hf : ∀ a s, R a s → wp exec K E Q (f a) s) : wp exec K E Q (p >>= f) s :=
  (h.weaken (fun _ _ hr => hr) hE).bind hf

/-- **Soundness**: what the weakest precondition promises holds of an execution whose operations meet
the condition. -/
theorem wp.post (h : wp exec K E Q p s) (hK : Meets exec K p s) :
    Post (run exec p s) (fun r => Q r.1 r.2) E := by
  induction p generalizing s with
  | ret a => exact h
  | op o k ih =>
    have hstep := h hK.1
    unfold run
    cases hexec : exec s o with
    | ok r =>
      rw [hexec] at hstep
      exact ih r.1 hstep (hK.2 r.1 r.2 hexec)
    | error e =>
      rw [hexec] at hstep
      exact hstep

/-- A condition that always holds is met. -/
theorem meets_of_forall (hK : ∀ s o, K s o) (p : Prog Op Ans α) (s : σ) : Meets exec K p s := by
  induction p generalizing s with
  | ret a => trivial
  | op o k ih => exact ⟨hK s o, fun r s' _ => ih r s'⟩

end Prog
