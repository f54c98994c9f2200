import Gaffa.Lib.Table
import Mathlib.Data.List.Perm.Basic
import Mathlib.Data.List.Nodup

/-!
# Grouping a list by a key

A loop that appends each value to the batch of its key, in a map whose entries come in any order
afterwards.

* `Holds.push`: the batches hold, under each key, its values in their order.
* `flatMap_valuesFor_perm`: a loop over the batches gets every value once.
* `valuesFor_take`, `exists_valuesFor_take`: the values of a key, moment by moment.
-/

set_option autoImplicit false

namespace Grouping

variable {κ α : Type} [DecidableEq κ]

/-- The values under a key, in order. -/
def valuesFor (k : κ) (pairs : List (κ × α)) : List α :=
  (pairs.filter fun pair => pair.1 = k).map Prod.snd

/-- `entry(k).or_insert_with(Vec::new).push(a)`. -/
def push (t : Table κ (List α)) (k : κ) (a : α) : Table κ (List α) :=
  t.insert k ((t.get k).getD [] ++ [a])

/-- The table holds the batches of these pairs. -/
def Holds (t : Table κ (List α)) (pairs : List (κ × α)) : Prop :=
  ∀ k, t.get k = if valuesFor k pairs = [] then none else some (valuesFor k pairs)

@[simp] theorem valuesFor_nil (k : κ) : valuesFor k ([] : List (κ × α)) = [] := rfl

theorem valuesFor_append (k : κ) (xs ys : List (κ × α)) :
    valuesFor k (xs ++ ys) = valuesFor k xs ++ valuesFor k ys := by
  rw [valuesFor, List.filter_append, List.map_append, valuesFor, valuesFor]

theorem valuesFor_singleton (k k' : κ) (a : α) :
    valuesFor k [(k', a)] = if k' = k then [a] else [] := by
  by_cases h : k' = k
  · simp [valuesFor, h]
  · simp [valuesFor, h]

theorem valuesFor_ne_nil {k : κ} {pairs : List (κ × α)} :
    valuesFor k pairs ≠ [] ↔ k ∈ pairs.map Prod.fst := by
  simp [valuesFor, List.filter_eq_nil_iff]

/-- The values of the first pairs are the first values. -/
theorem valuesFor_take (k : κ) (pairs : List (κ × α)) (m : Nat) :
    valuesFor k (pairs.take m) = (valuesFor k pairs).take (valuesFor k (pairs.take m)).length := by
  have hsplit := valuesFor_append k (pairs.take m) (pairs.drop m)
  rw [List.take_append_drop] at hsplit
  rw [hsplit, List.take_left]

/-- And any number of first values are those of some first pairs. -/
theorem exists_valuesFor_take (k : κ) (pairs : List (κ × α)) (m : Nat) :
    ∃ l, valuesFor k (pairs.take l) = (valuesFor k pairs).take m := by
  induction pairs generalizing m with
  | nil => exact ⟨0, by simp⟩
  | cons pair pairs ih =>
    have hcons : ∀ rest : List (κ × α), valuesFor k (pair :: rest) =
        valuesFor k [pair] ++ valuesFor k rest := fun rest => valuesFor_append k [pair] rest
    by_cases hk : pair.1 = k
    · have hone : valuesFor k [pair] = [pair.2] := by
        rw [valuesFor_singleton, if_pos hk]
      cases m with
      | zero => exact ⟨0, rfl⟩
      | succ m =>
        obtain ⟨l, hl⟩ := ih m
        refine ⟨l + 1, ?_⟩
        rw [List.take_succ_cons, hcons, hcons pairs, hone, hl]
        rfl
    · have hnone : valuesFor k [pair] = [] := by
        rw [valuesFor_singleton, if_neg hk]
      obtain ⟨l, hl⟩ := ih m
      refine ⟨l + 1, ?_⟩
      rw [List.take_succ_cons, hcons, hcons pairs, hnone, List.nil_append, List.nil_append, hl]

/-! ## The loop -/

theorem holds_empty : Holds (Table.empty : Table κ (List α)) [] := by
  intro k
  rfl

theorem Holds.push {t : Table κ (List α)} {pairs : List (κ × α)} (h : Holds t pairs) (k : κ)
    (a : α) : Holds (push t k a) (pairs ++ [(k, a)]) := by
  intro k'
  have hgetD : (t.get k).getD [] = valuesFor k pairs := by
    rw [h k]
    split
    · rename_i hnil
      rw [hnil, Option.getD_none]
    · rfl
  rw [Grouping.push, Table.get_insert, valuesFor_append, valuesFor_singleton, hgetD]
  by_cases hk : k' = k
  · subst hk
    simp
  · rw [if_neg hk, if_neg (Ne.symm hk), List.append_nil]
    exact h k'

theorem Holds.get_eq {t : Table κ (List α)} {pairs : List (κ × α)} (h : Holds t pairs) {k : κ}
    {batch : List α} (hget : t.get k = some batch) : batch = valuesFor k pairs := by
  rw [h k] at hget
  split at hget
  · cases hget
  · cases hget
    rfl

theorem Holds.mem_keys {t : Table κ (List α)} {pairs : List (κ × α)} (h : Holds t pairs) {k : κ} :
    k ∈ t.keys ↔ k ∈ pairs.map Prod.fst := by
  rw [← valuesFor_ne_nil, t.mem_keys, h k]
  split
  · rename_i hnil
    simp [hnil]
  · rename_i hne
    simp [hne]

/-! ## The batches one after the other -/

theorem flatMap_valuesFor_perm_filter {ks : List κ} (hks : ks.Nodup) (pairs : List (κ × α)) :
    (ks.flatMap fun k => valuesFor k pairs).Perm
      ((pairs.filter fun pair => pair.1 ∈ ks).map Prod.snd) := by
  induction ks with
  | nil => simp
  | cons k ks ih =>
    obtain ⟨hk, hks⟩ := List.nodup_cons.1 hks
    have hhead : (pairs.filter fun pair => pair.1 ∈ k :: ks).filter (fun pair => pair.1 = k) =
        pairs.filter fun pair => pair.1 = k := by
      rw [List.filter_filter]
      apply List.filter_congr
      intro pair _
      simp +contextual
    have htail : (pairs.filter fun pair => pair.1 ∈ k :: ks).filter (fun pair => !(pair.1 = k)) =
        pairs.filter fun pair => pair.1 ∈ ks := by
      rw [List.filter_filter]
      apply List.filter_congr
      intro pair _
      by_cases h : pair.1 = k
      · simp [h, hk]
      · simp [h]
    have hsplit := List.filter_append_perm (fun pair : κ × α => decide (pair.1 = k))
      (pairs.filter fun pair => pair.1 ∈ k :: ks)
    rw [hhead, htail] at hsplit
    have hrest : (valuesFor k pairs ++ ks.flatMap fun k => valuesFor k pairs).Perm
        (valuesFor k pairs ++ (pairs.filter fun pair => pair.1 ∈ ks).map Prod.snd) :=
      (ih hks).append_left _
    apply hrest.trans
    rw [valuesFor, ← List.map_append]
    exact hsplit.map _

/-- **Every value once**: in whatever order the batches come. -/
theorem flatMap_valuesFor_perm {ks : List κ} {pairs : List (κ × α)} (hks : ks.Nodup)
    (hmem : ∀ k, k ∈ ks ↔ k ∈ pairs.map Prod.fst) :
    (ks.flatMap fun k => valuesFor k pairs).Perm (pairs.map Prod.snd) := by
  have hall : (pairs.filter fun pair => pair.1 ∈ ks) = pairs := by
    rw [List.filter_eq_self]
    intro pair hpair
    rw [decide_eq_true_eq, hmem]
    exact List.mem_map_of_mem hpair
  have hperm := flatMap_valuesFor_perm_filter hks pairs
  rwa [hall] at hperm

end Grouping
