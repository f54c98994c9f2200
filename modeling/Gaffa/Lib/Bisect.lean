import Mathlib.Data.List.Basic

/-!
# Binary search for the last index that answers

The loop `while left < right { mid = (left + right) / 2; … }` that moves right when the probe at
`mid` answers and left when it does not, keeping the last answer.  The probe may fail.

* `bisect_boundary`: probes that answer exactly below `m` leave the loop at `m`, with the answer
  at `m - 1`; `exists_boundary`: there is such an `m` for what ascends.
* `bisect_probed`: whatever the probes say, an answer that is returned was given by some probe.
* `bisect_fails`: probes that answer below `m` and fail from `m` on make the search fail.
-/

set_option autoImplicit false

namespace Bisect

variable {ε β : Type}

/-- The loop, with fuel; `right - left` iterations are always enough. -/
def bisect (probe : Nat → Except ε (Option β)) :
    Nat → Nat → Nat → Option β → Except ε (Nat × Option β)
  | 0, left, _, answer => .ok (left, answer)
  | fuel + 1, left, right, answer =>
    if left < right then
      match probe ((left + right) / 2) with
      | .error e => .error e
      | .ok (some b) => bisect probe fuel ((left + right) / 2 + 1) right (some b)
      | .ok none => bisect probe fuel left ((left + right) / 2) answer
    else .ok (left, answer)

theorem bisect_boundary {probe : Nat → Except ε (Option β)} {f : Nat → β} {m : Nat} :
    ∀ (fuel left right : Nat) (answer : Option β), right - left ≤ fuel → left ≤ m → m ≤ right →
      (∀ i, left ≤ i → i < m → probe i = .ok (some (f i))) →
      (∀ i, m ≤ i → i < right → probe i = .ok none) →
      bisect probe fuel left right answer = .ok (m, if left < m then some (f (m - 1)) else answer)
  | 0, left, right, answer, hf, hl, hr, _, _ => by
    have : left = m := by omega
    simp [bisect, this]
  | fuel + 1, left, right, answer, hf, hl, hr, hlow, hhigh => by
    unfold bisect
    by_cases hlt : left < right
    · rw [if_pos hlt]
      by_cases hm : (left + right) / 2 < m
      · rw [hlow _ (by omega) hm]
        simp only
        rw [bisect_boundary fuel ((left + right) / 2 + 1) right (some (f ((left + right) / 2)))
          (by omega) (by omega) hr (fun i h1 h2 => hlow i (by omega) h2) hhigh]
        rw [if_pos (show left < m by omega)]
        by_cases hlast : (left + right) / 2 + 1 < m
        · rw [if_pos hlast]
        · rw [if_neg hlast, show m - 1 = (left + right) / 2 by omega]
      · rw [hhigh _ (by omega) (by omega)]
        simp only
        exact bisect_boundary fuel left ((left + right) / 2) answer (by omega) hl (by omega) hlow
          (fun i h1 h2 => hhigh i h1 (by omega))
    · have : left = m := by omega
      rw [if_neg hlt, if_neg (by omega), this]

/-- What ascends is at most a target exactly below some place. -/
theorem exists_boundary {f : Nat → Nat} (target : Nat) :
    ∀ {n : Nat}, (∀ i j, i < j → j < n → f i < f j) →
      ∃ m, m ≤ n ∧ (∀ i, i < m → f i ≤ target) ∧ ∀ i, m ≤ i → i < n → target < f i
  | 0, _ => ⟨0, Nat.le_refl 0, fun i hi => absurd hi (Nat.not_lt_zero i),
      fun i _ hi => absurd hi (Nat.not_lt_zero i)⟩
  | n + 1, hf => by
    by_cases hn : f n ≤ target
    · refine ⟨n + 1, Nat.le_refl _, ?_, fun i hge hlt => absurd hlt (Nat.not_lt_of_le hge)⟩
      intro i hi
      rcases Nat.lt_succ_iff_lt_or_eq.1 hi with hlt | rfl
      · exact Nat.le_trans (Nat.le_of_lt (hf i n hlt (Nat.lt_succ_self n))) hn
      · exact hn
    · obtain ⟨m, hm, hlow, hhigh⟩ := exists_boundary target
        fun i j hij hj => hf i j hij (Nat.lt_succ_of_lt hj)
      refine ⟨m, Nat.le_succ_of_le hm, hlow, ?_⟩
      intro i hge hi
      rcases Nat.lt_succ_iff_lt_or_eq.1 hi with hlt | rfl
      · exact hhigh i hge hlt
      · exact Nat.lt_of_not_le hn

theorem bisect_probed (probe : Nat → Except ε (Option β)) (P : β → Prop) (right₀ : Nat)
    (htotal : ∀ i, i < right₀ → ∃ r, probe i = .ok r)
    (hP : ∀ i b, i < right₀ → probe i = .ok (some b) → P b) :
    ∀ (fuel left right : Nat) (answer : Option β), right ≤ right₀ → (∀ b, answer = some b → P b) →
      ∃ l b?, bisect probe fuel left right answer = .ok (l, b?) ∧ ∀ b, b? = some b → P b
  | 0, left, _, answer, _, ha => ⟨left, answer, rfl, ha⟩
  | fuel + 1, left, right, answer, hr, ha => by
    unfold bisect
    split
    · rename_i hlt
      have hmid : (left + right) / 2 < right₀ := by omega
      obtain ⟨r, hprobe⟩ := htotal _ hmid
      rw [hprobe]
      cases r with
      | none => exact bisect_probed probe P right₀ htotal hP fuel left _ answer (by omega) ha
      | some b =>
        refine bisect_probed probe P right₀ htotal hP fuel _ right (some b) hr ?_
        intro b' hb'
        cases hb'
        exact hP _ b hmid hprobe
    · exact ⟨left, answer, rfl, ha⟩

theorem bisect_fails {probe : Nat → Except ε (Option β)} {m : Nat} {e : ε} :
    ∀ (fuel left right : Nat) (answer : Option β), right - left ≤ fuel → left ≤ m → m < right →
      (∀ i, left ≤ i → i < m → ∃ b, probe i = .ok (some b)) →
      (∀ i, m ≤ i → i < right → probe i = .error e) →
      bisect probe fuel left right answer = .error e
  | 0, _, _, _, hf, hl, hr, _, _ => by omega
  | fuel + 1, left, right, answer, hf, hl, hr, hlow, hfail => by
    unfold bisect
    rw [if_pos (by omega)]
    by_cases hm : (left + right) / 2 < m
    · obtain ⟨b, hb⟩ := hlow _ (by omega) hm
      rw [hb]
      exact bisect_fails fuel _ right (some b) (by omega) (by omega) hr
        (fun i h1 h2 => hlow i (by omega) h2) hfail
    · rw [hfail _ (by omega) (by omega)]

/-- The search fails only as some probe does. -/
theorem bisect_ne_error {probe : Nat → Except ε (Option β)} {e : ε} (h : ∀ i, probe i ≠ .error e) :
    ∀ (fuel left right : Nat) (answer : Option β),
      bisect probe fuel left right answer ≠ .error e
  | 0, _, _, _ => fun habsurd => by cases habsurd
  | fuel + 1, left, right, answer => by
    unfold bisect
    split
    · split
      · rename_i heq
        exact fun habsurd => h _ (heq.trans (congrArg Except.error (Except.error.inj habsurd)))
      · exact bisect_ne_error h fuel _ _ _
      · exact bisect_ne_error h fuel _ _ _
    · exact fun habsurd => by cases habsurd

/-- The search looks at nothing behind its range. -/
theorem bisect_congr {probe probe' : Nat → Except ε (Option β)} {n : Nat}
    (h : ∀ i, i < n → probe i = probe' i) :
    ∀ (fuel left right : Nat) (answer : Option β), right ≤ n →
      bisect probe fuel left right answer = bisect probe' fuel left right answer
  | 0, _, _, _, _ => rfl
  | fuel + 1, left, right, answer, hr => by
    unfold bisect
    by_cases hlt : left < right
    · rw [if_pos hlt, if_pos hlt, h _ (by omega)]
      split
      · rfl
      · exact bisect_congr h fuel _ right _ hr
      · exact bisect_congr h fuel left _ answer (by omega)
    · rw [if_neg hlt, if_neg hlt]

end Bisect
