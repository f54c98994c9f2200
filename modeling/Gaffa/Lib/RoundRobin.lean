import Mathlib.Data.Int.CardIntervalMod
import Mathlib.Data.List.Nodup
import Mathlib.Data.Nat.Periodic

/-!
# Dealing a list round robin

`share n i k xs` is what the `i`-th of `n` receivers gets when the elements of `xs`, numbered from
`k`, go to the receiver with their number modulo `n`.

`window n r p` are the `r` receivers from the `p`-th on, the first one after the last.

Principal results: `exists_mem_share` and `share_disjoint` (every element goes to one receiver),
`length_share_le` (any two shares differ by at most one), `card_filter_window` (in a full cycle every
receiver is in `r` windows), `balanced_take_iff` (receivers dealt in any order stay balanced exactly
when no round has one twice).
-/

set_option autoImplicit false

namespace RoundRobin

variable {α : Type*} {n i j k : Nat} {x : α} {xs : List α}

/-- The elements of a list, numbered from `k`, whose number is `i` modulo `n`. -/
def share (n i : Nat) : Nat → List α → List α
  | _, [] => []
  | k, x :: xs => if k % n = i then x :: share n i (k + 1) xs else share n i (k + 1) xs

theorem share_sublist (n i k : Nat) (xs : List α) : (share n i k xs).Sublist xs := by
  induction xs generalizing k with
  | nil => exact List.Sublist.slnil
  | cons x xs ih =>
    unfold share
    split
    · exact (ih (k + 1)).cons_cons x
    · exact (ih (k + 1)).cons x

/-- An element goes to the receiver that its number stands for. -/
theorem mem_share_iff : x ∈ share n i k xs ↔ ∃ j, xs[j]? = some x ∧ (k + j) % n = i := by
  induction xs generalizing k with
  | nil => simp [share]
  | cons y ys ih =>
    have hrest : (∃ j, (y :: ys)[j]? = some x ∧ (k + j) % n = i) ↔
        (y = x ∧ k % n = i) ∨ ∃ j, ys[j]? = some x ∧ (k + 1 + j) % n = i := by
      constructor
      · rintro ⟨_ | j, hj, hmod⟩
        · exact Or.inl ⟨Option.some.inj hj, hmod⟩
        · exact Or.inr ⟨j, hj, by rw [← hmod]; congr 1; omega⟩
      · rintro (⟨rfl, hmod⟩ | ⟨j, hj, hmod⟩)
        · exact ⟨0, rfl, hmod⟩
        · exact ⟨j + 1, hj, by rw [← hmod]; congr 1; omega⟩
    rw [hrest, share]
    split
    · rename_i hk
      rw [List.mem_cons, ih]
      simp [hk, eq_comm]
    · rename_i hk
      rw [ih]
      simp [hk]

/-- Every element goes to some receiver. -/
theorem exists_mem_share (hn : 0 < n) (h : x ∈ xs) : ∃ i, i < n ∧ x ∈ share n i k xs := by
  induction xs generalizing k with
  | nil => cases h
  | cons y ys ih =>
    unfold share
    rcases List.mem_cons.1 h with rfl | h
    · exact ⟨k % n, Nat.mod_lt k hn, by rw [if_pos rfl]; exact List.mem_cons_self ..⟩
    · obtain ⟨i, hi, hx⟩ := ih (k := k + 1) h
      refine ⟨i, hi, ?_⟩
      split
      · exact List.mem_cons_of_mem _ hx
      · exact hx

/-- No element goes to two receivers, if none occurs twice. -/
theorem share_disjoint (hnodup : xs.Nodup) (hij : i ≠ j) (hi : x ∈ share n i k xs) :
    x ∉ share n j k xs := by
  induction xs generalizing k with
  | nil => cases hi
  | cons y ys ih =>
    obtain ⟨hy, hys⟩ := List.nodup_cons.1 hnodup
    have hrest : ∀ l, x ∈ share n l (k + 1) ys → x ≠ y := by
      rintro l hx rfl
      exact hy ((share_sublist n l (k + 1) ys).mem hx)
    unfold share at hi ⊢
    intro hj
    by_cases hki : k % n = i
    · rw [if_pos hki] at hi
      rw [if_neg (hki ▸ hij)] at hj
      rcases List.mem_cons.1 hi with rfl | hi
      · exact hrest j hj rfl
      · exact ih hys hi hj
    · rw [if_neg hki] at hi
      split at hj
      · rcases List.mem_cons.1 hj with rfl | hj
        · exact hrest i hi rfl
        · exact ih hys hi hj
      · exact ih hys hi hj

theorem length_share (n i k : Nat) (xs : List α) :
    Nat.count (· % n = i) k + (share n i k xs).length = Nat.count (· % n = i) (k + xs.length) := by
  induction xs generalizing k with
  | nil => rfl
  | cons x xs ih =>
    have hstep : Nat.count (· % n = i) (k + 1) =
        Nat.count (· % n = i) k + if k % n = i then 1 else 0 := Nat.count_succ ..
    have hrest := ih (k + 1)
    rw [List.length_cons, show k + (xs.length + 1) = k + 1 + xs.length by omega, ← hrest, hstep,
      share]
    split
    · rw [List.length_cons]
      omega
    · omega

/-- Below any bound the residues `i` and `j` occur equally often, up to one. -/
theorem count_mod_le (hi : i < n) (hj : j < n) (b : Nat) :
    Nat.count (· % n = i) b ≤ Nat.count (· % n = j) b + 1 := by
  have hn : 0 < n := by omega
  have hcount : ∀ v, v < n → Nat.count (· % n = v) b = b / n + if v < b % n then 1 else 0 := by
    intro v hv
    have h := Nat.count_modEq_card b hn v
    simp only [Nat.ModEq, Nat.mod_eq_of_lt hv] at h
    exact h
  rw [hcount i hi, hcount j hj]
  split <;> split <;> omega

/-- **Balance**: two shares differ by at most one element. -/
theorem length_share_le (hi : i < n) (hj : j < n) (xs : List α) :
    (share n i 0 xs).length ≤ (share n j 0 xs).length + 1 := by
  have hli := length_share n i 0 xs
  have hlj := length_share n j 0 xs
  have hcount := count_mod_le hi hj (0 + xs.length)
  simp only [Nat.count_zero, Nat.zero_add] at hli hlj hcount
  omega

/-! ## Windows -/

/-- The `r` receivers of `n` from the `p`-th on. -/
def window (n r p : Nat) : List Nat := (List.range r).map fun i => (p + i) % n

section Window

variable {r p : Nat}

theorem mem_window : j ∈ window n r p ↔ ∃ i, i < r ∧ (p + i) % n = j := by
  simp [window]

theorem length_window (n r p : Nat) : (window n r p).length = r := by
  simp [window]

theorem lt_of_mem_window (hn : 0 < n) (h : j ∈ window n r p) : j < n := by
  obtain ⟨i, -, rfl⟩ := mem_window.1 h
  exact Nat.mod_lt _ hn

/-- No receiver is twice in a window that is not longer than the circle. -/
theorem nodup_window (h : r ≤ n) : (window n r p).Nodup := by
  apply List.nodup_range.map_on
  intro i hi i' hi' hmod
  have hlt : i < n := Nat.lt_of_lt_of_le (List.mem_range.1 hi) h
  have hlt' : i' < n := Nat.lt_of_lt_of_le (List.mem_range.1 hi') h
  have hmodEq : i ≡ i' [MOD n] := Nat.ModEq.add_left_cancel' p hmod
  exact hmodEq.eq_of_lt_of_lt hlt hlt'

/-- The windows that have a receiver, within the first cycle: one for each place in the window. -/
theorem count_window (hr : r ≤ n) (hj : j < n) : n.count (fun p => j ∈ window n r p) = r := by
  have hback : ∀ i, i < r → ((j + (n - i)) % n + i) % n = j := by
    intro i hi
    rw [Nat.mod_add_mod, show j + (n - i) + i = j + n by omega, Nat.add_mod_right,
      Nat.mod_eq_of_lt hj]
  have himage : (Finset.range n).filter (fun p => j ∈ window n r p) =
      (Finset.range r).image fun i => (j + (n - i)) % n := by
    ext p
    rw [Finset.mem_filter, Finset.mem_range, mem_window, Finset.mem_image]
    constructor
    · rintro ⟨hp, i, hi, hmod⟩
      refine ⟨i, Finset.mem_range.2 hi, ?_⟩
      have hmodEq : (j + (n - i)) % n ≡ p [MOD n] := by
        apply Nat.ModEq.add_right_cancel' i
        unfold Nat.ModEq
        rw [hback i hi, hmod]
      exact hmodEq.eq_of_lt_of_lt (Nat.mod_lt _ (by omega)) hp
    · rintro ⟨i, hi, rfl⟩
      exact ⟨Nat.mod_lt _ (by omega), i, Finset.mem_range.1 hi, hback i (Finset.mem_range.1 hi)⟩
  rw [Nat.count_eq_card_filter_range, himage, Finset.card_image_of_injOn, Finset.card_range]
  intro i hi i' hi' heq
  have hlt := Finset.mem_range.1 hi
  have hlt' := Finset.mem_range.1 hi'
  have hmod := hback i hlt
  rw [show (j + (n - i)) % n = (j + (n - i')) % n from heq] at hmod
  have hmodEq : i ≡ i' [MOD n] := Nat.ModEq.add_left_cancel' _ (hmod.trans (hback i' hlt').symm)
  exact hmodEq.eq_of_lt_of_lt (by omega) (by omega)

/-- **A full cycle**: every receiver is in exactly `r` of `n` consecutive windows. -/
theorem card_filter_window (hr : r ≤ n) (hj : j < n) (start : Nat) :
    ((Finset.Ico start (start + n)).filter fun p => j ∈ window n r p).card = r := by
  rw [Nat.filter_Ico_card_eq_of_periodic start n, count_window hr hj]
  intro p
  have hcircle : window n r (p + n) = window n r p := by
    unfold window
    apply List.map_congr_left
    intro i _
    rw [Nat.add_right_comm, Nat.add_mod_right]
  exact congrArg (j ∈ ·) hcircle

end Window

/-! ## Rounds -/

/-- No receiver below `n` occurs more than once more than another. -/
def Balanced (n : Nat) (rs : List Nat) : Prop :=
  ∀ p q, p < n → q < n → rs.count p ≤ rs.count q + 1

/-- In none of the rounds of `n` places a receiver occurs twice. -/
def DistinctRounds (n : Nat) (rs : List Nat) : Prop :=
  ∀ i j p, i < j → rs[i]? = some p → rs[j]? = some p → i / n ≠ j / n

section Rounds

variable {n : Nat} {rs : List Nat}

theorem getElem?_of_isPrefix {rs' : List Nat} (h : rs' <+: rs) {i p : Nat} (hi : rs'[i]? = some p) :
    rs[i]? = some p := by
  obtain ⟨more, rfl⟩ := h
  rwa [List.getElem?_append_left (List.getElem?_eq_some_iff.1 hi).1]

theorem DistinctRounds.of_isPrefix {rs' : List Nat} (h : DistinctRounds n rs) (hpre : rs' <+: rs) :
    DistinctRounds n rs' := fun i j p hij hi hj =>
  h i j p hij (getElem?_of_isPrefix hpre hi) (getElem?_of_isPrefix hpre hj)

/-- Receivers that are all different. -/
theorem DistinctRounds.of_nodup (h : rs.Nodup) : DistinctRounds n rs := by
  intro i j p hij hi hj
  rw [List.nodup_iff_getElem?_ne_getElem?] at h
  exact absurd (hi.trans hj.symm) (h i j hij (List.getElem?_eq_some_iff.1 hj).1)

/-- The places of one round. -/
theorem DistinctRounds.nodup (h : DistinctRounds n rs) (k : Nat) :
    ((rs.drop (n * k)).take n).Nodup := by
  rw [List.nodup_iff_getElem?_ne_getElem?]
  intro i j hij hj heq
  rw [List.length_take, Nat.lt_min, List.length_drop] at hj
  rw [List.getElem?_take_of_lt (Nat.lt_trans hij hj.1), List.getElem?_take_of_lt hj.1,
    List.getElem?_drop, List.getElem?_drop] at heq
  have hlt : n * k + j < rs.length := by omega
  have hget := List.getElem?_eq_getElem hlt
  have hround : ∀ l, l < n → (n * k + l) / n = k := by
    intro l hl
    rw [Nat.mul_add_div (by omega), Nat.div_eq_of_lt hl, Nat.add_zero]
  refine h _ _ _ (Nat.add_lt_add_left hij (n * k)) (heq.trans hget) hget ?_
  rw [hround i (by omega), hround j hj.1]

/-- A round that is full has every receiver once. -/
theorem count_of_full {round : List Nat} (hnodup : round.Nodup) (hlength : round.length = n)
    (hlt : ∀ p ∈ round, p < n) {p : Nat} (hp : p < n) : round.count p = 1 := by
  have hsub : round ⊆ List.range n := fun q hq => List.mem_range.2 (hlt q hq)
  have hperm : round.Perm (List.range n) :=
    (List.subperm_of_subset hnodup hsub).perm_of_length_le (by rw [List.length_range, hlength])
  rw [List.count_eq_one_of_mem hnodup (hperm.mem_iff.2 (List.mem_range.2 hp))]

/-- After `k` full rounds every receiver has occurred `k` times. -/
theorem count_take_rounds (h : DistinctRounds n rs) (hlt : ∀ p ∈ rs, p < n) {p : Nat} (hp : p < n)
    {k : Nat} (hk : n * k ≤ rs.length) : (rs.take (n * k)).count p = k := by
  induction k with
  | zero => rw [Nat.mul_zero, List.take_zero, List.count_nil]
  | succ k ih =>
    have hlength : ((rs.drop (n * k)).take n).length = n := by
      rw [List.length_take, List.length_drop]
      rw [Nat.mul_succ] at hk
      omega
    have hround : ((rs.drop (n * k)).take n).count p = 1 :=
      count_of_full (h.nodup k) hlength
        (fun q hq => hlt q (List.mem_of_mem_drop (List.mem_of_mem_take hq))) hp
    rw [Nat.mul_succ, List.take_add, List.count_append, hround, ih]
    exact Nat.le_trans (Nat.mul_le_mul_left n (Nat.le_succ k)) hk

/-- The places of the round that is not full. -/
def unfinished (n : Nat) (rs : List Nat) : List Nat := rs.drop (n * (rs.length / n))

theorem length_unfinished_lt (hn : 0 < n) (rs : List Nat) : (unfinished n rs).length < n := by
  have hdiv := Nat.div_add_mod rs.length n
  have hmod := Nat.mod_lt rs.length hn
  rw [unfinished, List.length_drop]
  omega

theorem DistinctRounds.nodup_unfinished (h : DistinctRounds n rs) (hn : 0 < n) :
    (unfinished n rs).Nodup := by
  have hround : ((unfinished n rs).take n).Nodup := h.nodup (rs.length / n)
  rwa [List.take_of_length_le (Nat.le_of_lt (length_unfinished_lt hn rs))] at hround

/-- **What each receiver got**: one of every full round, and what it got of the last. -/
theorem DistinctRounds.count (h : DistinctRounds n rs) (hlt : ∀ p ∈ rs, p < n) {p : Nat}
    (hp : p < n) : rs.count p = rs.length / n + (unfinished n rs).count p := by
  have hsplit : rs.take (n * (rs.length / n)) ++ unfinished n rs = rs := List.take_append_drop ..
  have hcount := congrArg (List.count p) hsplit
  rw [List.count_append, count_take_rounds h hlt hp (Nat.mul_div_le rs.length n)] at hcount
  exact hcount.symm

theorem DistinctRounds.balanced (h : DistinctRounds n rs) (hlt : ∀ p ∈ rs, p < n) :
    Balanced n rs := by
  intro p q hp hq
  have hnodup := h.nodup_unfinished (Nat.zero_lt_of_lt hp)
  have hone := List.nodup_iff_count_le_one.1 hnodup p
  rw [h.count hlt hp, h.count hlt hq]
  omega

/-- One more place in a round that has its receiver already is not balanced. -/
theorem not_balanced_of_mem (h : DistinctRounds n rs) (hlt : ∀ p ∈ rs, p < n) {p : Nat}
    (hp : p < n) (hmem : p ∈ unfinished n rs) : ¬ Balanced n (rs ++ [p]) := by
  have hn : 0 < n := Nat.zero_lt_of_lt hp
  -- the round is not full, so it lacks some receiver
  obtain ⟨q, hq, hlack⟩ : ∃ q, q < n ∧ q ∉ unfinished n rs := by
    by_contra hall
    have hsub : List.range n ⊆ unfinished n rs := by
      intro q hq
      by_contra hlack
      exact hall ⟨q, List.mem_range.1 hq, hlack⟩
    have hle := (List.subperm_of_subset List.nodup_range hsub).length_le
    rw [List.length_range] at hle
    exact absurd (length_unfinished_lt hn rs) (Nat.not_lt_of_le hle)
  have hne : p ≠ q := by
    rintro rfl
    exact hlack hmem
  intro hbalanced
  have hle := hbalanced p q hp hq
  have hone : 1 ≤ (unfinished n rs).count p := List.count_pos_iff.2 hmem
  have hzero : (unfinished n rs).count q = 0 := List.count_eq_zero.2 hlack
  rw [List.count_append, List.count_append, List.count_singleton_self,
    List.count_singleton, h.count hlt hp, h.count hlt hq, hzero] at hle
  simp [hne] at hle
  omega

/-- One more place, whose receiver the round does not have yet. -/
theorem DistinctRounds.concat (h : DistinctRounds n rs) {x : Nat} (hnew : x ∉ unfinished n rs) :
    DistinctRounds n (rs ++ [x]) := by
  intro i j p hij hi hj hround
  rcases Nat.lt_or_ge j rs.length with hj' | hj'
  · rw [List.getElem?_append_left (Nat.lt_trans hij hj')] at hi
    rw [List.getElem?_append_left hj'] at hj
    exact h i j p hij hi hj hround
  · have hlast : j = rs.length := by
      have hjlt := (List.getElem?_eq_some_iff.1 hj).1
      rw [List.length_append, List.length_singleton] at hjlt
      omega
    subst hlast
    rw [List.getElem?_append_left hij] at hi
    rw [List.getElem?_concat_length] at hj
    cases hj
    apply hnew
    have hstart : n * (rs.length / n) ≤ i := by
      rw [← hround]
      exact Nat.mul_div_le i n
    apply List.mem_of_getElem? (i := i - n * (rs.length / n))
    rw [unfinished, List.getElem?_drop, Nat.add_sub_cancel' hstart]
    exact hi

/-- **Balance at every moment**: what is dealt stays balanced exactly when no round has a receiver
twice. -/
theorem balanced_take_iff (hlt : ∀ p ∈ rs, p < n) :
    (∀ m, Balanced n (rs.take m)) ↔ DistinctRounds n rs := by
  constructor
  · induction rs using List.reverseRecOn with
    | nil =>
      intro _ i j p _ hi
      cases hi
    | append_singleton rs x ih =>
      intro hbalanced
      have hlt' : ∀ p ∈ rs, p < n := fun p hp => hlt p (List.mem_append_left _ hp)
      have hx : x < n := hlt x (List.mem_append_right _ (List.mem_singleton_self x))
      have hrs : DistinctRounds n rs := by
        apply ih hlt'
        intro m
        by_cases hm : m ≤ rs.length
        · have htake := hbalanced m
          rwa [List.take_append_of_le_length hm] at htake
        · have htake := hbalanced rs.length
          rw [List.take_left] at htake
          rwa [List.take_of_length_le (Nat.le_of_not_le hm)]
      have hnew : x ∉ unfinished n rs := by
        intro hmem
        apply not_balanced_of_mem hrs hlt' hx hmem
        have htake := hbalanced (rs.length + 1)
        rwa [List.take_of_length_le (by simp)] at htake
      exact hrs.concat hnew
  · intro h m
    exact (h.of_isPrefix (List.take_prefix m rs)).balanced fun p hp => hlt p (List.mem_of_mem_take hp)

end Rounds

end RoundRobin
