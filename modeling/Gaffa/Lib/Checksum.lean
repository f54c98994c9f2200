import Mathlib.Data.BitVec
import Mathlib.Logic.Function.Iterate

/-!
# Checksums by folding a step

A checksum that starts from a fixed state and takes one byte after the other.  If the step loses
neither the state nor the byte, no change of a single byte goes unnoticed.

* `Sensitive.foldl_set_ne`: the fold tells apart two strings that differ in one place.
* `shift_injective`: the bit step of a cyclic redundancy check, reflected, loses nothing when the
  polynomial has its highest coefficient.
-/

set_option autoImplicit false

namespace Checksum

/-! ## Sensitive steps -/

section Fold

variable {σ β : Type}

/-- The step loses neither the state nor the byte. -/
structure Sensitive (step : σ → β → σ) : Prop where
  state : ∀ b, Function.Injective fun c => step c b
  byte : ∀ c, Function.Injective (step c)

variable {step : σ → β → σ}

theorem Sensitive.foldl_injective (h : Sensitive step) :
    ∀ bs : List β, Function.Injective fun c => bs.foldl step c
  | [], _, _, heq => heq
  | b :: bs, c, c', heq => by
    have hstep : step c b = step c' b := h.foldl_injective bs heq
    exact h.state b hstep

/-- **A change in one place changes the fold.** -/
theorem Sensitive.foldl_set_ne (h : Sensitive step) (c : σ) {bs : List β} {i : Nat} {b : β}
    (hne : bs.set i b ≠ bs) : (bs.set i b).foldl step c ≠ bs.foldl step c := by
  induction bs generalizing c i with
  | nil => exact absurd rfl hne
  | cons a bs ih =>
    cases i with
    | zero =>
      intro heq
      have hstep : step c b = step c a := h.foldl_injective bs heq
      have hb : b = a := h.byte c hstep
      exact hne (by rw [hb]; rfl)
    | succ i =>
      exact ih (step c a) (fun heq => hne (congrArg (a :: ·) heq))

end Fold

/-! ## The bit step of a cyclic redundancy check -/

section Shift

variable {w : Nat}

/-- One bit of a reflected cyclic redundancy check. -/
def shift (poly c : BitVec w) : BitVec w :=
  if c.getLsbD 0 then (c >>> 1) ^^^ poly else c >>> 1

/-- The highest bit after the step is the lowest one before it. -/
theorem shift_high {poly : BitVec w} (hpoly : poly.getLsbD (w - 1) = true) (c : BitVec w) :
    (shift poly c).getLsbD (w - 1) = c.getLsbD 0 := by
  have hout : (c >>> 1).getLsbD (w - 1) = false := by
    rw [BitVec.getLsbD_ushiftRight]
    exact BitVec.getLsbD_of_ge _ _ (by omega)
  unfold shift
  split
  · rename_i h
    rw [BitVec.getLsbD_xor, hout, hpoly, h]
    rfl
  · rename_i h
    rw [hout, Bool.eq_false_of_not_eq_true h]

theorem eq_of_low_of_high {c c' : BitVec w} (hlow : c.getLsbD 0 = c'.getLsbD 0)
    (hhigh : c >>> 1 = c' >>> 1) : c = c' := by
  apply BitVec.eq_of_getLsbD_eq
  intro i _
  cases i with
  | zero => exact hlow
  | succ i =>
    have hbit := congrArg (fun x => BitVec.getLsbD x i) hhigh
    simpa [BitVec.getLsbD_ushiftRight, Nat.add_comm] using hbit

theorem shift_injective {poly : BitVec w} (hpoly : poly.getLsbD (w - 1) = true) :
    Function.Injective (shift poly) := by
  intro c c' heq
  have hlow : c.getLsbD 0 = c'.getLsbD 0 := by
    rw [← shift_high hpoly c, ← shift_high hpoly c', heq]
  refine eq_of_low_of_high hlow ?_
  unfold shift at heq
  rw [hlow] at heq
  split at heq
  · exact (BitVec.xor_left_inj poly).1 heq
  · exact heq

end Shift

end Checksum
