import Mathlib.Data.Finset.Max
import Gaffa.Lib.Table
import Gaffa.Lib.Transition

/-!
# Tasks that take several readers-writer locks

Any number of tasks run side by side.  Each takes and gives up locks in a fixed order, may stop
early where it works, and gives back what it still holds when it ends.  Which of the waiting tasks
gets a lock is left open, so the runs under any queue are among these.

* `Settled.next`: two tasks never hold a lock in modes that conflict, and every task is at one of
  the points of its program.
* `deadlocked_iff`: if waiting leads upwards in some ranking of the points, except between two
  tasks that wait for each other, then tasks are deadlocked exactly when two wait for each other.
* `exists_step`: unless they are deadlocked, one of the tasks can go on.
* `deadlocked_of_asking`: the same tasks are deadlocked if a task also counts as waiting behind
  others that have the lock in a mode that does not conflict.
-/

set_option autoImplicit false

namespace Locks

open Transition

variable {ι P L : Type}

inductive Mode where
  | read
  | write
  deriving DecidableEq, Repr

/-- Two tasks may have a lock at the same time only to read. -/
def Mode.conflicts : Mode → Mode → Bool
  | .read, .read => false
  | _, _ => true

theorem Mode.conflicts_comm (m n : Mode) : m.conflicts n = n.conflicts m := by
  cases m <;> cases n <;> rfl

/-- What a task does next: take a lock, give one up, or work, which may end it early. -/
inductive Op (L : Type) where
  | take (lock : L) (mode : Mode)
  | drop (lock : L)
  | work
  deriving DecidableEq, Repr

/-- A task: the call it carries out, the locks it holds, the newest first, and what is left of its
program. -/
structure Task (P L : Type) where
  call : P
  held : List (L × Mode)
  todo : List (Op L)
  deriving DecidableEq, Repr

namespace Task

/-- The lock that the task takes next. -/
def wants (t : Task P L) : Option (L × Mode) :=
  match t.todo with
  | .take lock mode :: _ => some (lock, mode)
  | _ => none

/-- Work that ends the task early. -/
def failed (t : Task P L) : Option (Task P L) :=
  match t.todo with
  | .work :: _ => some { t with todo := [] }
  | _ => none

theorem held_of_failed {t t' : Task P L} (h : t.failed = some t') : t'.held = t.held := by
  unfold failed at h
  split at h <;> cases h
  rfl

variable [DecidableEq L]

/-- The task after its next step; at the end of its program it gives back the newest lock first. -/
def after (t : Task P L) : Option (Task P L) :=
  match t.todo, t.held with
  | .take lock mode :: rest, held => some { t with held := (lock, mode) :: held, todo := rest }
  | .drop lock :: rest, held =>
    some { t with held := held.eraseP (·.1 = lock), todo := rest }
  | .work :: rest, _ => some { t with todo := rest }
  | [], _ :: held => some { t with held := held }
  | [], [] => none

/-- `u` has the lock that `t` takes next. -/
def asksFor (t u : Task P L) : Bool :=
  match t.wants with
  | some (lock, _) => u.held.any (·.1 = lock)
  | none => false

/-- `u` has the lock that `t` takes next, in a mode that conflicts with the one `t` wants. -/
def waitsFor (t u : Task P L) : Bool :=
  match t.wants with
  | some (lock, mode) => u.held.any fun h => h.1 = lock ∧ mode.conflicts h.2
  | none => false

/-- The two tasks may hold what they hold at the same time. -/
def compatible (t u : Task P L) : Bool :=
  t.held.all fun h => u.held.all fun k => ¬(h.1 = k.1 ∧ h.2.conflicts k.2)

/-- The points that a task comes to from `t` in at most `n - 1` steps. -/
def ahead : Nat → Task P L → List (Task P L)
  | 0, _ => []
  | n + 1, t => t :: (t.failed.toList ++ t.after.toList).flatMap (ahead n)

theorem compatible_iff {t u : Task P L} : t.compatible u = true ↔
    ∀ h ∈ t.held, ∀ k ∈ u.held, h.1 = k.1 → h.2.conflicts k.2 = false := by
  simp [compatible, imp_iff_not_or]

theorem compatible_comm {t u : Task P L} (h : t.compatible u = true) : u.compatible t = true := by
  rw [compatible_iff] at h ⊢
  intro k hk g hg heq
  rw [Mode.conflicts_comm]
  exact h g hg k hk heq.symm

theorem asksFor_of_waitsFor {t u : Task P L} (h : t.waitsFor u = true) : t.asksFor u = true := by
  unfold waitsFor at h
  unfold asksFor
  split at h
  · rename_i lock mode hwants
    simp only [List.any_eq_true, decide_eq_true_eq] at h ⊢
    obtain ⟨k, hk, heq, -⟩ := h
    exact ⟨k, hk, heq⟩
  · cases h

theorem wants_of_asksFor {t u : Task P L} (h : t.asksFor u = true) : t.wants.isSome = true := by
  unfold asksFor at h
  split at h
  · rename_i hwants
    rw [hwants]
    rfl
  · cases h

/-- A step adds at most the wanted lock to what a task holds. -/
theorem mem_held_after {t t' : Task P L} (h : t.after = some t') {k : L × Mode}
    (hk : k ∈ t'.held) : k ∈ t.held ∨ t.wants = some k := by
  unfold after at h
  split at h <;> cases h
  · rename_i htodo
    rcases List.mem_cons.1 hk with rfl | hk
    · exact .inr (by simp [wants, htodo])
    · exact .inl hk
  · exact .inl (List.mem_of_mem_eraseP hk)
  · exact .inl hk
  · rename_i hheld
    exact .inl (hheld ▸ List.mem_cons_of_mem _ hk)

/-- A task that waits for none of the locks of `u` stays compatible with `u` over its next step. -/
theorem compatible_after {t t' u : Task P L} (hcomp : t.compatible u = true)
    (hfree : t.waitsFor u = false) (h : t.after = some t') : t'.compatible u = true := by
  rw [compatible_iff] at hcomp ⊢
  intro k hk g hg heq
  rcases mem_held_after h hk with hold | hwants
  · exact hcomp k hold g hg heq
  · simp only [waitsFor, hwants, List.any_eq_false, decide_eq_true_eq, not_and,
      Bool.not_eq_true] at hfree
    exact hfree g hg heq.symm

end Task

/-! ## Runs -/

inductive Event (ι P : Type) where
  | call (i : ι) (call : P)
  | step (i : ι)
  | fail (i : ι)

variable [DecidableEq ι] [DecidableEq L]

/-- No other task has the lock that the task of `i` takes next. -/
def Free (s : Table ι (Task P L)) (i : ι) (t : Task P L) : Prop :=
  ∀ j ∈ s.keys, j ≠ i → ∀ u ∈ s.get j, t.waitsFor u = false

instance decidableFree (s : Table ι (Task P L)) (i : ι) (t : Task P L) : Decidable (Free s i t) :=
  inferInstanceAs (Decidable (∀ j ∈ s.keys, j ≠ i → ∀ u ∈ s.get j, t.waitsFor u = false))

/-- The steps of a run. -/
def next (program : P → List (Op L)) (s : Table ι (Task P L)) :
    Event ι P → Option (Table ι (Task P L))
  | .call i p =>
    match s.get i with
    | some _ => none
    | none => some (s.insert i ⟨p, [], program p⟩)
  | .step i =>
    match s.get i with
    | none => none
    | some t =>
      if Free s i t then
        match t.after with
        | some t' => some (s.insert i t')
        | none => some (s.remove i)
      else none
  | .fail i =>
    match s.get i with
    | none => none
    | some t =>
      match t.failed with
      | some t' => some (s.insert i t')
      | none => none

/-- The task of `i` waits for a lock that the task of `j` has. -/
def Waits (s : Table ι (Task P L)) (i j : ι) : Prop :=
  i ≠ j ∧ ∃ t u, s.get i = some t ∧ s.get j = some u ∧ t.waitsFor u = true

/-- **Deadlock**: there are tasks that each wait for a lock that another of them has. -/
def Deadlocked (s : Table ι (Task P L)) : Prop :=
  ∃ S : Finset ι, S.Nonempty ∧ ∀ i ∈ S, ∃ j ∈ S, Waits s i j

/-! ## What every step keeps -/

/-- Every task is at a point of its program, and no two hold a lock in modes that conflict. -/
structure Settled (points : P → List (Task P L)) (s : Table ι (Task P L)) : Prop where
  located : ∀ i t, s.get i = some t → t ∈ points t.call
  exclusive : ∀ i j t u, i ≠ j → s.get i = some t → s.get j = some u → t.compatible u = true

/-- The points of the programs: where they start, and where a step leads from one of them. -/
structure Points (program : P → List (Op L)) (points : P → List (Task P L)) : Prop where
  start : ∀ p, ⟨p, [], program p⟩ ∈ points p
  after : ∀ p, ∀ t ∈ points p, ∀ t' ∈ t.after, t'.call = p ∧ t' ∈ points p
  failed : ∀ p, ∀ t ∈ points p, ∀ t' ∈ t.failed, t'.call = p ∧ t' ∈ points p

variable {program : P → List (Op L)} {points : P → List (Task P L)} {s t : Table ι (Task P L)}

omit [DecidableEq ι] in
theorem settled_empty : Settled points (Table.empty : Table ι (Task P L)) := by
  constructor
  · intro i t h
    cases h
  · intro i j t u _ h
    cases h

/-- A task that fits beside the others may be put in the place of the one of `i`. -/
theorem Settled.insert (h : Settled points s) {i : ι} {x : Task P L} (hx : x ∈ points x.call)
    (hfits : ∀ j u, j ≠ i → s.get j = some u → x.compatible u = true) :
    Settled points (s.insert i x) := by
  constructor
  · intro j u hj
    rcases Table.get_insert_cases hj with ⟨-, rfl⟩ | ⟨-, hj⟩
    · exact hx
    · exact h.located j u hj
  · intro j k u v hjk hj hk
    rcases Table.get_insert_cases hj with ⟨rfl, rfl⟩ | ⟨hji, hj'⟩
    · exact hfits k v hjk.symm ((Table.get_insert_ne _ hjk.symm).symm.trans hk)
    · rcases Table.get_insert_cases hk with ⟨rfl, rfl⟩ | ⟨-, hk'⟩
      · exact Task.compatible_comm (hfits j u hji hj')
      · exact h.exclusive j k u v hjk hj' hk'

theorem Settled.remove (h : Settled points s) (i : ι) : Settled points (s.remove i) := by
  constructor
  · intro j u hj
    exact h.located j u (Table.get_remove_cases hj).2
  · intro j k u v hjk hj hk
    have hj' := (Table.get_remove_cases hj).2
    have hk' := (Table.get_remove_cases hk).2
    exact h.exclusive j k u v hjk hj' hk'

/-- **The steps of a run**, read backwards: what a step may have been. -/
theorem next_cases {e : Event ι P} (h : next program s e = some t) :
    (∃ i p, e = .call i p ∧ s.get i = none ∧ t = s.insert i ⟨p, [], program p⟩) ∨
    (∃ i x y, e = .step i ∧ s.get i = some x ∧ Free s i x ∧ x.after = some y ∧
      t = s.insert i y) ∨
    (∃ i x, e = .step i ∧ s.get i = some x ∧ x.after = none ∧ t = s.remove i) ∨
    (∃ i x y, e = .fail i ∧ s.get i = some x ∧ x.failed = some y ∧ t = s.insert i y) := by
  cases e with
  | call i p =>
    simp only [next] at h
    cases hi : s.get i with
    | some x => simp [hi] at h
    | none =>
      simp only [hi, Option.some.injEq] at h
      exact .inl ⟨i, p, rfl, hi, h.symm⟩
  | step i =>
    simp only [next] at h
    cases hi : s.get i with
    | none => simp [hi] at h
    | some x =>
      simp only [hi] at h
      split at h
      · rename_i hfree
        cases hx : x.after with
        | some y =>
          simp only [hx, Option.some.injEq] at h
          exact .inr (.inl ⟨i, x, y, rfl, hi, hfree, hx, h.symm⟩)
        | none =>
          simp only [hx, Option.some.injEq] at h
          exact .inr (.inr (.inl ⟨i, x, rfl, hi, hx, h.symm⟩))
      · cases h
  | fail i =>
    simp only [next] at h
    cases hi : s.get i with
    | none => simp [hi] at h
    | some x =>
      simp only [hi] at h
      cases hx : x.failed with
      | some y =>
        simp only [hx, Option.some.injEq] at h
        exact .inr (.inr (.inr ⟨i, x, y, rfl, hi, hx, h.symm⟩))
      | none => simp [hx] at h

/-- **One step** keeps the tasks settled. -/
theorem Settled.next (hpoints : Points program points) (h : Settled points s) {e : Event ι P}
    (hstep : next program s e = some t) : Settled points t := by
  rcases next_cases hstep with ⟨i, p, -, -, rfl⟩ | ⟨i, x, y, -, hi, hfree, hx, rfl⟩ |
    ⟨i, x, -, -, -, rfl⟩ | ⟨i, x, y, -, hi, hx, rfl⟩
  · apply h.insert (hpoints.start p)
    intro j u _ _
    rfl
  · obtain ⟨hcall, hy⟩ := hpoints.after x.call x (h.located i x hi) y hx
    apply h.insert (hcall ▸ hy)
    intro j u hji hj
    have hcomp := h.exclusive i j x u hji.symm hi hj
    have hwaits := hfree j (Table.mem_keys_iff.2 ⟨u, hj⟩) hji u hj
    exact Task.compatible_after hcomp hwaits hx
  · exact h.remove i
  · obtain ⟨hcall, hy⟩ := hpoints.failed x.call x (h.located i x hi) y hx
    apply h.insert (hcall ▸ hy)
    intro j u hji hj
    have hcomp := h.exclusive i j x u hji.symm hi hj
    rw [Task.compatible_iff, Task.held_of_failed hx]
    exact Task.compatible_iff.1 hcomp

/-! ## Deadlock -/

/-- Waiting leads upwards in the ranking, except between two tasks that wait for each other. -/
def Ranked (points : P → List (Task P L)) (rank : Task P L → Nat) : Prop :=
  ∀ t u, t ∈ points t.call → u ∈ points u.call → t.compatible u = true → t.asksFor u = true →
    u.wants.isSome = true → (t.waitsFor u = true ∧ u.waitsFor t = true) ∨ rank t < rank u

omit [DecidableEq ι] in
/-- Among tasks that each ask for a lock that another of them has, two wait for each other: the
one of highest rank and the one it asks. -/
theorem exists_mutual {rank : Task P L → Nat} (hrank : Ranked points rank)
    (h : Settled points s) {S : Finset ι} (hne : S.Nonempty)
    (hS : ∀ i ∈ S, ∃ j ∈ S, i ≠ j ∧ ∃ t u, s.get i = some t ∧ s.get j = some u ∧
      t.asksFor u = true) :
    ∃ i j, Waits s i j ∧ Waits s j i := by
  obtain ⟨i, hi, hmax⟩ := S.exists_max_image (fun i => (s.get i).elim 0 rank) hne
  obtain ⟨j, hj, hij, t, u, ht, hu, hasks⟩ := hS i hi
  -- the task that is asked asks in its turn
  obtain ⟨k, -, -, u', v, hu', -, hasks'⟩ := hS j hj
  obtain rfl : u = u' := Option.some.inj (hu.symm.trans hu')
  have hcomp := h.exclusive i j t u hij ht hu
  have hup := hrank t u (h.located i t ht) (h.located j u hu) hcomp hasks
    (Task.wants_of_asksFor hasks')
  rcases hup with ⟨htu, hut⟩ | hlt
  · exact ⟨i, j, ⟨hij, t, u, ht, hu, htu⟩, hij.symm, u, t, hu, ht, hut⟩
  · have hle := hmax j hj
    simp only [ht, hu, Option.elim_some] at hle
    omega

theorem deadlocked_of_mutual {i j : ι} (hij : Waits s i j) (hji : Waits s j i) :
    Deadlocked s := by
  refine ⟨{i, j}, ⟨i, Finset.mem_insert_self i {j}⟩, ?_⟩
  intro k hk
  rcases Finset.mem_insert.1 hk with rfl | hk
  · exact ⟨j, by simp, hij⟩
  · obtain rfl := Finset.mem_singleton.1 hk
    exact ⟨i, by simp, hji⟩

/-- **Tasks are deadlocked exactly when two of them wait for each other.** -/
theorem deadlocked_iff {rank : Task P L → Nat} (hrank : Ranked points rank)
    (h : Settled points s) : Deadlocked s ↔ ∃ i j, Waits s i j ∧ Waits s j i := by
  constructor
  · rintro ⟨S, hne, hS⟩
    apply exists_mutual hrank h hne
    intro i hi
    obtain ⟨j, hj, hij, t, u, ht, hu, hwaits⟩ := hS i hi
    exact ⟨j, hj, hij, t, u, ht, hu, Task.asksFor_of_waitsFor hwaits⟩
  · rintro ⟨i, j, hij, hji⟩
    exact deadlocked_of_mutual hij hji

/-- Waiting behind others for a lock that is free for the mode wanted adds no deadlock. -/
theorem deadlocked_of_asking {rank : Task P L → Nat} (hrank : Ranked points rank)
    (h : Settled points s) {S : Finset ι} (hne : S.Nonempty)
    (hS : ∀ i ∈ S, ∃ j ∈ S, i ≠ j ∧ ∃ t u, s.get i = some t ∧ s.get j = some u ∧
      t.asksFor u = true) : Deadlocked s := by
  obtain ⟨i, j, hij, hji⟩ := exists_mutual hrank h hne hS
  exact deadlocked_of_mutual hij hji

/-- Unless they are deadlocked, one of the tasks can make its next step. -/
theorem exists_step (program : P → List (Op L)) (hne : ∃ i t, s.get i = some t)
    (h : ¬Deadlocked s) : ∃ i t, next program s (.step i) = some t := by
  by_contra hstuck
  apply h
  obtain ⟨i, t, hi⟩ := hne
  refine ⟨s.keys, ⟨i, Table.mem_keys_iff.2 ⟨t, hi⟩⟩, ?_⟩
  intro i hi
  obtain ⟨t, ht⟩ := Table.mem_keys_iff.1 hi
  have hnot : ¬Free s i t := by
    intro hfree
    apply hstuck
    cases hafter : t.after with
    | some t' => exact ⟨i, s.insert i t', by simp [next, ht, hfree, hafter]⟩
    | none => exact ⟨i, s.remove i, by simp [next, ht, hfree, hafter]⟩
  simp only [Free, not_forall, Bool.not_eq_false] at hnot
  obtain ⟨j, hj, hji, u, hu, hwaits⟩ := hnot
  exact ⟨j, hj, Ne.symm hji, t, u, ht, hu, hwaits⟩

end Locks
