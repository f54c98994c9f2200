import Mathlib.Algebra.Ring.Nat
import Mathlib.Data.Nat.ModEq

/-!
# Errors, panics and checked arithmetic

`GaffaError` is the error type of `common/src/error.rs`.  A Rust call can also panic (a slice
index out of range, a subtraction below zero, an addition that overflows): `Fault` is either.
-/

set_option autoImplicit false

namespace Gaffa

/-- `GaffaError`. -/
inductive GaffaError where
  | io (e : String)
  | serialization (e : String)
  | topicNotFound (topic : String)
  | partitionNotFound (topic : String) (partition : Nat)
  | invalidOffset (offset : Nat)
  | protocol (e : String)
  | connection (e : String)
  | invalidMessage (e : String)
  | storage (e : String)
  | corruption (e : String)
  | segmentNotFound (e : String)
  | groupNotFound (group : String)
  | consumerNotFound (consumer : String)
  | compression (e : String)
  deriving DecidableEq, Repr

/-- `GaffaError::to_string`. -/
def GaffaError.display : GaffaError → String
  | .io e => "IO error: " ++ e
  | .serialization e => "Serialization error: " ++ e
  | .topicNotFound t => "Topic not found: " ++ t
  | .partitionNotFound t p => "Partition not found: topic=" ++ t ++ ", partition=" ++ toString p
  | .invalidOffset o => "Invalid offset: " ++ toString o
  | .protocol e => "Protocol error: " ++ e
  | .connection e => "Connection error: " ++ e
  | .invalidMessage e => "Invalid message: " ++ e
  | .storage e => "Storage error: " ++ e
  | .corruption e => "Data corruption detected: " ++ e
  | .segmentNotFound e => "Segment not found: " ++ e
  | .groupNotFound g => "Consumer group not found: " ++ g
  | .consumerNotFound c => "Consumer not found: " ++ c
  | .compression e => "Compression error: " ++ e

/-- What ends a call early: an error that is returned, or a panic. -/
inductive Fault where
  | error (e : GaffaError)
  | panic (message : String)
  deriving DecidableEq, Repr

/-- The call ended in a panic: it did not return. -/
def panicked {α : Type} : Except Fault α → Bool
  | .error (.panic _) => true
  | _ => false

@[simp] theorem panicked_map {α β : Type} (f : α → β) (x : Except Fault α) :
    panicked (x.map f) = panicked x := by
  cases x with
  | error e => cases e <;> rfl
  | ok a => rfl

/-- Deciding equality of outcomes, so that runs can be evaluated. -/
instance decidableEqExcept {ε α : Type} [DecidableEq ε] [DecidableEq α] :
    DecidableEq (Except ε α)
  | .ok a, .ok b => decidable_of_iff (a = b) (by simp)
  | .error a, .error b => decidable_of_iff (a = b) (by simp)
  | .ok _, .error _ => isFalse (by simp)
  | .error _, .ok _ => isFalse (by simp)

/-! ## Sequencing -/

theorem ok_bind {α β : Type} (a : α) (f : α → Except Fault β) :
    (Except.ok a >>= f) = f a := rfl

theorem bind_ok {α β : Type} {x : Except Fault α} {f : α → Except Fault β} {b : β}
    (h : (x >>= f) = .ok b) : ∃ a, x = .ok a ∧ f a = .ok b := by
  cases x with
  | error e => cases h
  | ok a => exact ⟨a, rfl, h⟩

/-! ## Checked arithmetic -/

/-- `a + b` on `w`-bit integers in a build with overflow checks. -/
def checkedAdd (w a b : Nat) : Except Fault Nat :=
  if a + b < 2 ^ w then .ok (a + b) else .error (.panic "attempt to add with overflow")

/-- `a + b` on `w`-bit integers: a panic with overflow checks, wrapping without them. -/
def addWith (overflowChecks : Bool) (w a b : Nat) : Except Fault Nat :=
  if overflowChecks then checkedAdd w a b else .ok ((a + b) % 2 ^ w)

theorem addWith_ok_or_panicked (overflowChecks : Bool) (w a b : Nat) :
    (∃ c, addWith overflowChecks w a b = .ok c) ∨
      ∃ message, addWith overflowChecks w a b = .error (.panic message) := by
  unfold addWith checkedAdd
  split
  · split
    · exact Or.inl ⟨_, rfl⟩
    · exact Or.inr ⟨_, rfl⟩
  · exact Or.inl ⟨_, rfl⟩

theorem addWith_of_lt {w a b : Nat} (overflowChecks : Bool) (h : a + b < 2 ^ w) :
    addWith overflowChecks w a b = .ok (a + b) := by
  unfold addWith checkedAdd
  rw [if_pos h, Nat.mod_eq_of_lt h, ite_self]

/-- **What an addition can do**: fit, panic, or wrap. -/
theorem addWith_cases (overflowChecks : Bool) (w a b : Nat) :
    (a + b < 2 ^ w ∧ addWith overflowChecks w a b = .ok (a + b)) ∨
    (2 ^ w ≤ a + b ∧ overflowChecks = true ∧ ∃ e, addWith overflowChecks w a b = .error e) ∨
    (2 ^ w ≤ a + b ∧ overflowChecks = false ∧
      addWith overflowChecks w a b = .ok ((a + b) % 2 ^ w)) := by
  by_cases hlt : a + b < 2 ^ w
  · exact Or.inl ⟨hlt, addWith_of_lt overflowChecks hlt⟩
  · right
    have hge := Nat.le_of_not_lt hlt
    cases overflowChecks with
    | true =>
      left
      exact ⟨hge, rfl, _, if_neg hlt⟩
    | false =>
      right
      exact ⟨hge, rfl, rfl⟩

theorem addWith_error_iff (overflowChecks : Bool) (w a b : Nat) :
    (∃ e, addWith overflowChecks w a b = .error e) ↔ overflowChecks = true ∧ 2 ^ w ≤ a + b := by
  rcases addWith_cases overflowChecks w a b with ⟨hlt, hok⟩ | ⟨hle, hchecks, he⟩ | ⟨-, hchecks, hok⟩
  · refine iff_of_false ?_ (fun h => absurd hlt (Nat.not_lt_of_le h.2))
    rintro ⟨e, he⟩
    rw [hok] at he
    cases he
  · exact iff_of_true he ⟨hchecks, hle⟩
  · refine iff_of_false ?_ ?_
    · rintro ⟨e, he⟩
      rw [hok] at he
      cases he
    · rintro ⟨h, -⟩
      rw [hchecks] at h
      cases h

theorem addWith_ok_mod {overflowChecks : Bool} {w a b c : Nat}
    (h : addWith overflowChecks w a b = .ok c) : c = (a + b) % 2 ^ w := by
  rcases addWith_cases overflowChecks w a b with ⟨hlt, hok⟩ | ⟨-, -, e, he⟩ | ⟨-, -, hok⟩
  · rw [h] at hok
    cases hok
    exact (Nat.mod_eq_of_lt hlt).symm
  · rw [h] at he
    cases he
  · rw [h] at hok
    cases hok
    rfl

theorem checkedAdd_ok {w a b c : Nat} (h : checkedAdd w a b = .ok c) : c = a + b ∧ c < 2 ^ w := by
  unfold checkedAdd at h
  split at h
  · cases h; exact ⟨rfl, by assumption⟩
  · cases h

theorem checkedAdd_of_lt {w a b : Nat} (h : a + b < 2 ^ w) : checkedAdd w a b = .ok (a + b) :=
  if_pos h

/-- An addition to what is known modulo `2 ^ w`; with overflow checks it is known exactly. -/
theorem addWith_mod {overflowChecks : Bool} {w a : Nat} (b : Nat)
    (h : overflowChecks = true → a < 2 ^ w) :
    (overflowChecks = true ∧ 2 ^ w ≤ a + b ∧
      ∃ message, addWith overflowChecks w (a % 2 ^ w) b = .error (.panic message)) ∨
    ((overflowChecks = true → a + b < 2 ^ w) ∧
      addWith overflowChecks w (a % 2 ^ w) b = .ok ((a + b) % 2 ^ w)) := by
  cases overflowChecks with
  | false =>
    right
    refine ⟨fun hfalse => absurd hfalse Bool.false_ne_true, ?_⟩
    rw [← Nat.mod_add_mod]
    rfl
  | true =>
    rw [Nat.mod_eq_of_lt (h rfl)]
    by_cases hlt : a + b < 2 ^ w
    · right
      rw [Nat.mod_eq_of_lt hlt]
      exact ⟨fun _ => hlt, addWith_of_lt true hlt⟩
    · left
      exact ⟨rfl, Nat.le_of_not_lt hlt, _, if_neg hlt⟩

/-- `a - b` on `w`-bit integers: below zero a panic with overflow checks, wrapping without them. -/
def subWith (overflowChecks : Bool) (w a b : Nat) : Except Fault Nat :=
  if b ≤ a then .ok (a - b)
  else if overflowChecks then .error (.panic "attempt to subtract with overflow")
  else .ok ((a + (2 ^ w - b % 2 ^ w)) % 2 ^ w)

/-- A subtraction undoes the addition, also where that wrapped; with overflow checks it did not. -/
theorem subWith_add {overflowChecks : Bool} {w a b : Nat}
    (h : overflowChecks = true → b + a < 2 ^ w) :
    subWith overflowChecks w ((b + a) % 2 ^ w) b = .ok (a % 2 ^ w) := by
  have hmod : (b + a) % 2 ^ w < 2 ^ w := Nat.mod_lt _ (Nat.two_pow_pos w)
  unfold subWith
  split
  · rename_i hle
    have hcongr : b + ((b + a) % 2 ^ w - b) ≡ b + a [MOD 2 ^ w] := by
      rw [Nat.add_sub_cancel' hle]
      exact Nat.mod_modEq _ _
    have hrest : ((b + a) % 2 ^ w - b) % 2 ^ w = a % 2 ^ w :=
      Nat.ModEq.add_left_cancel' b hcongr
    rw [← hrest, Nat.mod_eq_of_lt (Nat.lt_of_le_of_lt (Nat.sub_le ..) hmod)]
  · rename_i hlt
    have hchecks : overflowChecks = false := by
      cases overflowChecks with
      | false => rfl
      | true =>
        rw [Nat.mod_eq_of_lt (h rfl)] at hlt
        exact absurd (Nat.le_add_right b a) hlt
    have hb : b % 2 ^ w ≤ 2 ^ w := (Nat.mod_lt b (Nat.two_pow_pos w)).le
    have hcongr : b % 2 ^ w + ((b + a) % 2 ^ w + (2 ^ w - b % 2 ^ w)) ≡ b % 2 ^ w + a
        [MOD 2 ^ w] := by
      calc b % 2 ^ w + ((b + a) % 2 ^ w + (2 ^ w - b % 2 ^ w))
          = (b + a) % 2 ^ w + 2 ^ w := by omega
        _ ≡ b + a [MOD 2 ^ w] := by
          unfold Nat.ModEq
          rw [Nat.add_mod_right, Nat.mod_mod]
        _ ≡ b % 2 ^ w + a [MOD 2 ^ w] := (Nat.mod_modEq b _).symm.add_right a
    rw [hchecks]
    exact congrArg Except.ok (Nat.ModEq.add_left_cancel' _ hcongr)

end Gaffa
