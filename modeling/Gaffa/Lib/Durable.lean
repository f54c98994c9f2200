import Mathlib.Logic.Function.Basic
import Mathlib.Data.List.Infix
import Mathlib.Tactic.TypeStar

/-!
# A map with a saved half

A map in memory, and the saved map that a restart goes back to.  Entries are put into memory one by
one; they are saved and dropped by parts, `part key` being the part of a key.

* `clean_changes`: a part is saved unless something was put into it since it last was.
* `saved_was_memory`: whatever a restart goes back to was in memory at some time before.
-/

set_option autoImplicit false

namespace Durable

variable {κ γ ν : Type*}

structure Halves (κ ν : Type*) where
  memory : κ → Option ν
  saved : κ → Option ν

/-- Neither half has an entry. -/
def Halves.empty : Halves κ ν := ⟨fun _ => none, fun _ => none⟩

inductive Change (κ γ ν : Type*) where
  | put (key : κ) (value : ν)
  | save (p : γ)
  | drop (p : γ)
  | restart

variable [DecidableEq κ] [DecidableEq γ] (part : κ → γ)

def Halves.change (h : Halves κ ν) : Change κ γ ν → Halves κ ν
  | .put key value => { h with memory := Function.update h.memory key (some value) }
  | .save p => { h with saved := fun key => if part key = p then h.memory key else h.saved key }
  | .drop p => ⟨fun key => if part key = p then none else h.memory key,
      fun key => if part key = p then none else h.saved key⟩
  | .restart => { h with memory := h.saved }

def Halves.changes (h : Halves κ ν) (cs : List (Change κ γ ν)) : Halves κ ν :=
  cs.foldl (Halves.change part) h

theorem changes_append (h : Halves κ ν) (cs cs' : List (Change κ γ ν)) :
    h.changes part (cs ++ cs') = (h.changes part cs).changes part cs' := List.foldl_append ..

/-! ## What is saved -/

/-- The part is saved as it is. -/
def Clean (h : Halves κ ν) (p : γ) : Prop := ∀ key, part key = p → h.memory key = h.saved key

/-- Whether a part has something unsaved after a change, if it had before. -/
def unsavedAfter (p : γ) (unsaved : Bool) : Change κ γ ν → Bool
  | .put key _ => unsaved || part key == p
  | .save q => unsaved && q != p
  | .drop q => unsaved && q != p
  | .restart => false

/-- Something was put into the part since it was last saved. -/
def unsaved (p : γ) (cs : List (Change κ γ ν)) : Bool := cs.foldl (unsavedAfter part p) false

variable {part} {h : Halves κ ν} {p : γ}

theorem clean_change {c : Change κ γ ν} {b : Bool} (hclean : b = false → Clean part h p)
    (hafter : unsavedAfter part p b c = false) : Clean part (h.change part c) p := by
  cases c with
  | put key value =>
    obtain ⟨hb, hkey⟩ : b = false ∧ part key ≠ p := by simpa [unsavedAfter] using hafter
    rintro k rfl
    have hne : k ≠ key := by
      rintro rfl
      exact hkey rfl
    exact (Function.update_of_ne hne ..).trans (hclean hb k rfl)
  | save q =>
    rintro k rfl
    simp only [Halves.change]
    split
    · rfl
    · rename_i hne
      have hb : b = false := by simpa [unsavedAfter, Ne.symm hne] using hafter
      exact hclean hb k rfl
  | drop q =>
    rintro k rfl
    simp only [Halves.change]
    split
    · rfl
    · rename_i hne
      have hb : b = false := by simpa [unsavedAfter, Ne.symm hne] using hafter
      exact hclean hb k rfl
  | restart => exact fun _ _ => rfl

theorem clean_foldl : ∀ {cs : List (Change κ γ ν)} {h : Halves κ ν} {b : Bool},
    (b = false → Clean part h p) → cs.foldl (unsavedAfter part p) b = false →
      Clean part (h.changes part cs) p
  | [], _, _, hclean, hafter => hclean hafter
  | c :: _, h, b, hclean, hafter =>
    clean_foldl (h := h.change part c) (b := unsavedAfter part p b c) (clean_change hclean) hafter

/-- **A part is saved** unless something was put into it since it last was. -/
theorem clean_changes {cs : List (Change κ γ ν)} (hclean : Clean part h p)
    (hcs : unsaved part p cs = false) : Clean part (h.changes part cs) p :=
  clean_foldl (fun _ => hclean) hcs

/-- **Saved entries are old entries**: what a restart goes back to was in memory before. -/
theorem saved_was_memory {key : κ} (hclean : h.memory key = h.saved key)
    (cs : List (Change κ γ ν)) :
    ∃ past, past <+: cs ∧ (h.changes part past).memory key = (h.changes part cs).saved key := by
  induction cs using List.reverseRecOn with
  | nil => exact ⟨[], List.nil_prefix, hclean⟩
  | append_singleton cs c ih =>
    obtain ⟨past, hpast, hmemory⟩ := ih
    have hlonger : past <+: cs ++ [c] := hpast.trans (List.prefix_append cs [c])
    rw [changes_append part h cs [c]]
    cases c with
    | put key' value => exact ⟨past, hlonger, hmemory⟩
    | save q =>
      by_cases hpart : part key = q
      · refine ⟨cs ++ [.save q], List.prefix_rfl, ?_⟩
        rw [changes_append]
        exact (if_pos hpart).symm
      · exact ⟨past, hlonger, hmemory.trans (if_neg hpart).symm⟩
    | drop q =>
      by_cases hpart : part key = q
      · refine ⟨cs ++ [.drop q], List.prefix_rfl, ?_⟩
        rw [changes_append]
        exact (if_pos hpart).trans (if_pos hpart).symm
      · exact ⟨past, hlonger, hmemory.trans (if_neg hpart).symm⟩
    | restart => exact ⟨past, hlonger, hmemory⟩

end Durable
