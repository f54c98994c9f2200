import Mathlib.Data.List.Basic
import Mathlib.Tactic.TypeStar

/-!
# Runs of a labelled transition relation

* `Run step s tr`: from `s`, the labels of `tr` can be taken in order, each leading to the state
  written beside it.
* `EachStep P s tr` / `Throughout Q s tr`: a property of every step / of every state of a run.

Principal rules: `throughout_of_invariant` (an inductive invariant holds throughout),
`eachStep_iff` (a property of steps holds along a run exactly when a condition does, if the
condition is what the invariant needs to survive a step).
-/

set_option autoImplicit false

namespace Transition

variable {σ α : Type*} {step : σ → α → σ → Prop}

/-- A run from `s`: labels in order, each with the state its step leads to. -/
def Run (step : σ → α → σ → Prop) : σ → List (α × σ) → Prop
  | _, [] => True
  | s, (a, t) :: tr => step s a t ∧ Run step t tr

/-- The state in which a run ends. -/
def last : σ → List (α × σ) → σ
  | s, [] => s
  | _, (_, t) :: tr => last t tr

/-- The states of a run in order, the first one included. -/
def states (s : σ) (tr : List (α × σ)) : List σ := s :: tr.map Prod.snd

/-- Every step of the run satisfies `P` (state before, label, state after). -/
def EachStep (P : σ → α → σ → Prop) : σ → List (α × σ) → Prop
  | _, [] => True
  | s, (a, t) :: tr => P s a t ∧ EachStep P t tr

/-- Every state of the run satisfies `Q`, the first one included. -/
def Throughout (Q : σ → Prop) : σ → List (α × σ) → Prop
  | s, [] => Q s
  | s, (_, t) :: tr => Q s ∧ Throughout Q t tr

/-! ## Runs of a step function -/

/-- The relation of a step function that may refuse a label. -/
def Steps (next : σ → α → Option σ) (s : σ) (a : α) (t : σ) : Prop := next s a = some t

/-- The run that a step function makes of a list of labels, if it refuses none. -/
def trace (next : σ → α → Option σ) : σ → List α → Option (List (α × σ))
  | _, [] => some []
  | s, a :: as =>
    match next s a with
    | none => none
    | some t => (trace next t as).map ((a, t) :: ·)

theorem run_of_trace {next : σ → α → Option σ} :
    ∀ {s : σ} {as : List α} {tr : List (α × σ)}, trace next s as = some tr → Run (Steps next) s tr
  | _, [], _, h => by cases h; exact trivial
  | s, a :: as, tr, h => by
    unfold trace at h
    split at h
    · cases h
    · rename_i t ht
      obtain ⟨tr', htr', rfl⟩ := Option.map_eq_some_iff.1 h
      exact ⟨ht, run_of_trace htr'⟩

theorem events_of_trace {next : σ → α → Option σ} :
    ∀ {s : σ} {as : List α} {tr : List (α × σ)}, trace next s as = some tr → tr.map Prod.fst = as
  | _, [], _, h => by cases h; rfl
  | s, a :: as, tr, h => by
    unfold trace at h
    split at h
    · cases h
    · obtain ⟨rest, hrest, rfl⟩ := Option.map_eq_some_iff.1 h
      rw [List.map_cons, events_of_trace hrest]

/-- What holds at every step with one of the labels holds at each step of their run. -/
theorem eachStep_of_trace {next : σ → α → Option σ} {P : σ → α → σ → Prop} :
    ∀ {s : σ} {as : List α} {tr : List (α × σ)}, trace next s as = some tr →
      (∀ a ∈ as, ∀ s t, P s a t) → EachStep P s tr
  | _, [], _, h, _ => by cases h; exact trivial
  | s, a :: as, tr, h, hP => by
    unfold trace at h
    split at h
    · cases h
    · rename_i t ht
      obtain ⟨tr', htr', rfl⟩ := Option.map_eq_some_iff.1 h
      exact ⟨hP a (List.mem_cons_self ..) s t,
        eachStep_of_trace htr' fun b hb => hP b (List.mem_cons_of_mem _ hb)⟩

/-! ## Invariants -/

/-- A side condition on the steps of a run may be made part of the relation. -/
theorem Run.and {P : σ → α → σ → Prop} : ∀ {s : σ} {tr : List (α × σ)}, Run step s tr →
    EachStep P s tr → Run (fun s a t => step s a t ∧ P s a t) s tr
  | _, [], _, _ => trivial
  | _, (_, _) :: _, hr, hp => ⟨⟨hr.1, hp.1⟩, hr.2.and hp.2⟩

theorem EachStep.and {P R : σ → α → σ → Prop} : ∀ {s : σ} {tr : List (α × σ)}, EachStep P s tr →
    EachStep R s tr → EachStep (fun s a t => P s a t ∧ R s a t) s tr
  | _, [], _, _ => trivial
  | _, (_, _) :: _, hp, hr => ⟨⟨hp.1, hr.1⟩, hp.2.and hr.2⟩

theorem EachStep.mono {P R : σ → α → σ → Prop} (h : ∀ s a t, P s a t → R s a t) :
    ∀ {s : σ} {tr : List (α × σ)}, EachStep P s tr → EachStep R s tr
  | _, [], _ => trivial
  | _, (_, _) :: _, hp => ⟨h _ _ _ hp.1, EachStep.mono h hp.2⟩

instance (P : σ → α → σ → Prop) [∀ s a t, Decidable (P s a t)] :
    ∀ s tr, Decidable (EachStep P s tr)
  | _, [] => isTrue trivial
  | s, (a, t) :: tr =>
    have : Decidable (EachStep P t tr) := instDecidableEachStep P t tr
    inferInstanceAs (Decidable (P s a t ∧ EachStep P t tr))

theorem Throughout.first {Q : σ → Prop} {s : σ} : ∀ {tr : List (α × σ)}, Throughout Q s tr → Q s
  | [], h => h
  | _ :: _, h => h.1

theorem Throughout.at_last {Q : σ → Prop} :
    ∀ {s : σ} {tr : List (α × σ)}, Throughout Q s tr → Q (last s tr)
  | _, [], h => h
  | _, (_, _) :: _, h => h.2.at_last

theorem Throughout.mono {Q Q' : σ → Prop} (h : ∀ s, Q s → Q' s) :
    ∀ {s : σ} {tr : List (α × σ)}, Throughout Q s tr → Throughout Q' s tr
  | _, [], hq => h _ hq
  | _, (_, _) :: _, hq => ⟨h _ hq.1, Throughout.mono h hq.2⟩

theorem throughout_iff_eachStep {Q : σ → Prop} :
    ∀ {s : σ} {tr : List (α × σ)},
      Throughout Q s tr ↔ Q s ∧ EachStep (fun _ _ t => Q t) s tr
  | s, [] => by simp [Throughout, EachStep]
  | s, (a, t) :: tr => by
    simp only [Throughout, EachStep, @throughout_iff_eachStep Q t tr]

/-- **Any two moments**: a transitive relation holds between every state of a run and every later
one exactly when each step keeps it. -/
theorem pairwise_states_iff {R : σ → σ → Prop} (htrans : ∀ s t u, R s t → R t u → R s u) :
    ∀ {s : σ} {tr : List (α × σ)},
      (states s tr).Pairwise R ↔ EachStep (fun s _ t => R s t) s tr
  | s, [] => iff_of_true (List.pairwise_singleton R s) trivial
  | s, (a, t) :: tr => by
    have hcons : (states s ((a, t) :: tr)).Pairwise R ↔
        (∀ u ∈ states t tr, R s u) ∧ (states t tr).Pairwise R := List.pairwise_cons
    rw [hcons, pairwise_states_iff htrans (s := t)]
    constructor
    · rintro ⟨hlater, hrest⟩
      exact ⟨hlater t (List.mem_cons_self ..), hrest⟩
    · rintro ⟨hst, hrest⟩
      refine ⟨?_, hrest⟩
      intro u hu
      rcases List.mem_cons.1 hu with rfl | hu
      · exact hst
      · have hpair := (pairwise_states_iff htrans).2 hrest
        exact htrans s t u hst ((List.pairwise_cons.1 hpair).1 u hu)

/-- **An inductive invariant holds throughout**, on every run whose steps all satisfy `P`. -/
theorem throughout_of_invariant {I : σ → Prop} {P : σ → α → σ → Prop}
    (hstep : ∀ s a t, I s → step s a t → P s a t → I t) :
    ∀ {s : σ} {tr : List (α × σ)}, I s → Run step s tr → EachStep P s tr → Throughout I s tr
  | _, [], h, _, _ => h
  | s, (a, t) :: _, h, hr, hp =>
    ⟨h, throughout_of_invariant hstep (hstep s a t h hr.1 hp.1) hr.2 hp.2⟩

/-- The same without a condition on the steps. -/
theorem throughout_of_inductive {I : σ → Prop} (hstep : ∀ s a t, I s → step s a t → I t) :
    ∀ {s : σ} {tr : List (α × σ)}, I s → Run step s tr → Throughout I s tr
  | _, [], h, _ => h
  | s, (a, t) :: _, h, hr => ⟨h, throughout_of_inductive hstep (hstep s a t h hr.1) hr.2⟩

/-- A property of steps that follows from the invariant holds at each step of such a run. -/
theorem eachStep_of_invariant {I : σ → Prop} {P R : σ → α → σ → Prop}
    (hstep : ∀ s a t, I s → step s a t → P s a t → I t)
    (hR : ∀ s a t, I s → step s a t → P s a t → R s a t) :
    ∀ {s : σ} {tr : List (α × σ)}, I s → Run step s tr → EachStep P s tr → EachStep R s tr
  | _, [], _, _, _ => trivial
  | s, (a, t) :: _, h, hr, hp =>
    ⟨hR s a t h hr.1 hp.1, eachStep_of_invariant hstep hR (hstep s a t h hr.1 hp.1) hr.2 hp.2⟩

theorem eachStep_of_inductive {I : σ → Prop} {R : σ → α → σ → Prop}
    (hstep : ∀ s a t, I s → step s a t → I t) (hR : ∀ s a t, I s → step s a t → R s a t) :
    ∀ {s : σ} {tr : List (α × σ)}, I s → Run step s tr → EachStep R s tr
  | _, [], _, _ => trivial
  | s, (a, t) :: _, h, hr =>
    ⟨hR s a t h hr.1, eachStep_of_inductive hstep hR (hstep s a t h hr.1) hr.2⟩

/-- **Exactness along runs.** If at every step from a state of the invariant the property `R`
holds exactly when the condition `P` does, and `P` is enough to keep the invariant, then `R`
holds at each step of a run exactly when `P` does. -/
theorem eachStep_iff {I : σ → Prop} {P R : σ → α → σ → Prop}
    (hstep : ∀ s a t, I s → step s a t → P s a t → I t)
    (hiff : ∀ s a t, I s → step s a t → (R s a t ↔ P s a t)) :
    ∀ {s : σ} {tr : List (α × σ)}, I s → Run step s tr → (EachStep R s tr ↔ EachStep P s tr)
  | _, [], _, _ => Iff.rfl
  | s, (a, t) :: tr, h, hr => by
    constructor
    · intro hR
      have hp : P s a t := (hiff s a t h hr.1).1 hR.1
      exact ⟨hp, (eachStep_iff hstep hiff (hstep s a t h hr.1 hp) hr.2).1 hR.2⟩
    · intro hP
      have hI : I t := hstep s a t h hr.1 hP.1
      exact ⟨(hiff s a t h hr.1).2 hP.1, (eachStep_iff hstep hiff hI hr.2).2 hP.2⟩

/-- The same for a property of states: it holds throughout exactly when the condition holds at
each step. -/
theorem throughout_iff {I Q : σ → Prop} {P : σ → α → σ → Prop}
    (hstep : ∀ s a t, I s → step s a t → P s a t → I t) (hQ : ∀ s, I s → Q s)
    (hbad : ∀ s a t, I s → step s a t → Q t → P s a t)
    {s : σ} {tr : List (α × σ)} (h : I s) (hr : Run step s tr) :
    Throughout Q s tr ↔ EachStep P s tr := by
  rw [throughout_iff_eachStep,
    eachStep_iff (R := fun _ _ t => Q t) hstep
      (fun s a t hI hs => ⟨hbad s a t hI hs, fun hp => hQ t (hstep s a t hI hs hp)⟩) h hr]
  exact and_iff_right (hQ s h)

end Transition
