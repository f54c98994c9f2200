import Mathlib.Order.Basic
import Mathlib.Tactic.TypeStar

/-!
# Programs that ask

A program that asks a partner questions and goes on with the answers.  The same program can be run
against one partner without interruption, or be one of many whose questions are interleaved.

* `run_bind`, `transcript_bind`: a program in two parts asks the questions of the first part first.
* `Meets`: a program respects its obligations in its questions and its result, as long as the answers
  are what it relies on; `Meets.bind`, `Meets.mono` and `Meets.anti` are the rules.
-/

set_option autoImplicit false

/-- A program that asks questions `q : Q`, answered in `R q`, and ends with a value. -/
inductive Dialogue (Q : Type) (R : Q → Type) (α : Type) where
  | done (a : α)
  | ask (q : Q) (next : R q → Dialogue Q R α)

namespace Dialogue

variable {Q : Type} {R : Q → Type} {α β σ γ : Type}

/-- One question. -/
def question (q : Q) : Dialogue Q R (R q) := .ask q .done

/-- A program that goes on with the result of another. -/
def bind : Dialogue Q R α → (α → Dialogue Q R β) → Dialogue Q R β
  | .done a, f => f a
  | .ask q next, f => .ask q fun r => (next r).bind f

instance : Monad (Dialogue Q R) where
  pure := .done
  bind := bind

@[simp] theorem ask_bind (q : Q) (next : R q → Dialogue Q R α) (f : α → Dialogue Q R β) :
    (.ask q next >>= f) = .ask q fun r => next r >>= f := rfl

/-! ## One partner -/

/-- The result against a partner with a state. -/
def run (answer : σ → (q : Q) → R q × σ) : σ → Dialogue Q R α → α × σ
  | s, .done a => (a, s)
  | s, .ask q next => run answer (answer s q).2 (next (answer s q).1)

@[simp] theorem run_ask (answer : σ → (q : Q) → R q × σ) (s : σ) (q : Q)
    (next : R q → Dialogue Q R α) :
    run answer s (.ask q next) = run answer (answer s q).2 (next (answer s q).1) := rfl

theorem run_bind (answer : σ → (q : Q) → R q × σ) (s : σ) (d : Dialogue Q R α)
    (f : α → Dialogue Q R β) :
    run answer s (d >>= f) = run answer (run answer s d).2 (f (run answer s d).1) := by
  induction d generalizing s with
  | done a => rfl
  | ask q next ih => exact ih _ _

/-- The questions with their answers, in order. -/
def transcript (answer : σ → (q : Q) → R q × σ) : σ → Dialogue Q R α → List ((q : Q) × R q)
  | _, .done _ => []
  | s, .ask q next =>
    ⟨q, (answer s q).1⟩ :: transcript answer (answer s q).2 (next (answer s q).1)

@[simp] theorem transcript_ask (answer : σ → (q : Q) → R q × σ) (s : σ) (q : Q)
    (next : R q → Dialogue Q R α) :
    transcript answer s (.ask q next) =
      ⟨q, (answer s q).1⟩ :: transcript answer (answer s q).2 (next (answer s q).1) := rfl

theorem transcript_bind (answer : σ → (q : Q) → R q × σ) (s : σ) (d : Dialogue Q R α)
    (f : α → Dialogue Q R β) :
    transcript answer s (d >>= f) =
      transcript answer s d ++ transcript answer (run answer s d).2 (f (run answer s d).1) := by
  induction d generalizing s with
  | done a => rfl
  | ask q next ih =>
    rw [ask_bind, transcript_ask, transcript_ask, ih, run_ask, List.cons_append]

/-- Each answer is in order. -/
def AllAnswers (answer : σ → (q : Q) → R q × σ) (P : (q : Q) → R q → Prop) :
    σ → Dialogue Q R α → Prop
  | _, .done _ => True
  | s, .ask q next =>
    P q (answer s q).1 ∧ AllAnswers answer P (answer s q).2 (next (answer s q).1)

instance instDecidableAllAnswers (answer : σ → (q : Q) → R q × σ) (P : (q : Q) → R q → Prop)
    [∀ q r, Decidable (P q r)] :
    ∀ (s : σ) (d : Dialogue Q R α), Decidable (AllAnswers answer P s d)
  | _, .done _ => isTrue trivial
  | s, .ask q next =>
    have := instDecidableAllAnswers answer P (answer s q).2 (next (answer s q).1)
    inferInstanceAs (Decidable (P q (answer s q).1 ∧
      AllAnswers answer P (answer s q).2 (next (answer s q).1)))

theorem allAnswers_bind {answer : σ → (q : Q) → R q × σ} {P : (q : Q) → R q → Prop} {s : σ}
    {d : Dialogue Q R α} {f : α → Dialogue Q R β} :
    AllAnswers answer P s (d >>= f) ↔
      AllAnswers answer P s d ∧ AllAnswers answer P (run answer s d).2 (f (run answer s d).1) := by
  induction d generalizing s with
  | done a => exact (iff_of_eq (true_and _)).symm
  | ask q next ih =>
    rw [ask_bind, AllAnswers, AllAnswers, ih, run_ask, and_assoc]

/-! ## Obligations -/

/-- What a program owes its partner, and what it relies on: which questions respect an obligation,
which answers are to be expected, and what is owed after an answer.  Less is easier to respect. -/
structure Contract (Q : Type) (R : Q → Type) (κ : Type) [Preorder κ] where
  respects : κ → Q → Prop
  expects : (q : Q) → R q → Prop
  after : κ → (q : Q) → R q → κ
  respects_anti : ∀ {k k' : κ} {q : Q}, k' ≤ k → respects k q → respects k' q
  after_mono : ∀ {k k' : κ} {q : Q} (r : R q), k' ≤ k → after k' q r ≤ after k q r

section Meets

variable {κ : Type} [Preorder κ] {C : Contract Q R κ} {post post' : κ → α → Prop} {k k' : κ}

/-- The program's questions respect what it owes when it asks them, and its result what it owes in
the end, whatever the answers are that it relies on. -/
def Meets (C : Contract Q R κ) (post : κ → α → Prop) : κ → Dialogue Q R α → Prop
  | k, .done a => post k a
  | k, .ask q next => C.respects k q ∧ ∀ r, C.expects q r → Meets C post (C.after k q r) (next r)

theorem Meets.mono {d : Dialogue Q R α} (h : Meets C post k d)
    (hpost : ∀ k a, post k a → post' k a) : Meets C post' k d := by
  induction d generalizing k with
  | done a => exact hpost k a h
  | ask q next ih => exact ⟨h.1, fun r hr => ih r (h.2 r hr)⟩

/-- Less may be owed. -/
theorem Meets.anti {d : Dialogue Q R α} (hpost : ∀ {k k' a}, k' ≤ k → post k a → post k' a)
    (h : Meets C post k d) (hk : k' ≤ k) : Meets C post k' d := by
  induction d generalizing k k' with
  | done a => exact hpost hk h
  | ask q next ih =>
    exact ⟨C.respects_anti hk h.1, fun r hr => ih r (h.2 r hr) (C.after_mono r hk)⟩

/-- **Sequencing.** -/
theorem Meets.bind {β : Type} {post : κ → β → Prop} {d : Dialogue Q R α} {f : α → Dialogue Q R β}
    (h : Meets C (fun k a => Meets C post k (f a)) k d) : Meets C post k (d >>= f) := by
  induction d generalizing k with
  | done a => exact h
  | ask q next ih => exact ⟨h.1, fun r hr => ih r (h.2 r hr)⟩

end Meets

end Dialogue
