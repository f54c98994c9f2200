import Gaffa.Lib.Dialogue

/-!
# Programs that ask a service which others use

Before each of its answers the service may have moved on, but only upwards in a preorder.

* `Ensures`: from a state of the service on, the program can only end with a result that has a
  property; `Ensures.later`, `Ensures.mono` and `Ensures.bind` are the rules.
* `Ensures.answer`: what is left of the program after one answer.
-/

set_option autoImplicit false

namespace Dialogue

variable {Q : Type} {R : Q → Type} {α β σ : Type} [Preorder σ]
  {serves : σ → (q : Q) → R q → Prop} {post post' : σ → α → Prop} {s t : σ}

/-- The program's result has the property in every state in which it can end, and afterwards;
`serves s q r` says that the service may answer `q` with `r` in the state `s`. -/
def Ensures (serves : σ → (q : Q) → R q → Prop) (post : σ → α → Prop) : σ → Dialogue Q R α → Prop
  | s, .done a => ∀ t, s ≤ t → post t a
  | s, .ask q next => ∀ t, s ≤ t → ∀ r, serves t q r → Ensures serves post t (next r)

theorem Ensures.later {d : Dialogue Q R α} (h : Ensures serves post s d) (hle : s ≤ t) :
    Ensures serves post t d := by
  cases d with
  | done a => exact fun u hu => h u (hle.trans hu)
  | ask q next => exact fun u hu => h u (hle.trans hu)

theorem Ensures.mono {d : Dialogue Q R α} (h : Ensures serves post s d)
    (hpost : ∀ t, s ≤ t → ∀ a, post t a → post' t a) : Ensures serves post' s d := by
  induction d generalizing s with
  | done a => exact fun t ht => hpost t ht a (h t ht)
  | ask q next ih =>
    intro t ht r hr
    exact ih r (h t ht r hr) fun u hu => hpost u (ht.trans hu)

/-- **Sequencing.** -/
theorem Ensures.bind {post : σ → β → Prop} {d : Dialogue Q R α} {f : α → Dialogue Q R β}
    (h : Ensures serves (fun t a => Ensures serves post t (f a)) s d) :
    Ensures serves post s (d >>= f) := by
  induction d generalizing s with
  | done a => exact h s le_rfl
  | ask q next ih => exact fun t ht r hr => ih r (h t ht r hr)

/-- A property of all results, from a state on, is ensured. -/
theorem Ensures.of_forall {d : Dialogue Q R α} (h : ∀ t, s ≤ t → ∀ a, post t a) :
    Ensures serves post s d := by
  induction d generalizing s with
  | done a => exact fun t ht => h t ht a
  | ask q next ih => exact fun t ht r _ => ih r fun u hu => h u (ht.trans hu)

/-- **One answer.** -/
theorem Ensures.answer {q : Q} {next : R q → Dialogue Q R α} {r : R q}
    (h : Ensures serves post s (.ask q next)) (hr : serves s q r) : Ensures serves post s (next r) :=
  h s le_rfl r hr

/-- **The end.** -/
theorem Ensures.result {a : α} (h : Ensures serves post s (.done a)) : post s a := h s le_rfl

end Dialogue
