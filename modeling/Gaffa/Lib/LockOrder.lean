import Gaffa.Lib.Locks
import Mathlib.Algebra.BigOperators.Group.Finset.Basic
import Mathlib.Algebra.Order.BigOperators.Group.Finset

/-!
# Tasks that keep to an order of their locks

A discipline that rules deadlock out.  Every lock has a level and some have a guard, which whoever
takes the lock must hold.  A task takes locks upwards; but one that holds the guard to write may take
what the guard is for in any order, since nobody else can hold it.

* `Discipline.keeps_append`: programs that keep to the discipline are put together from pieces.
* `Disciplined.next`: tasks whose programs do are disciplined at every point of a run.
* `Disciplined.not_stuck`: such tasks never wait for each other, nor for themselves, also if waiting
  counts that is due to a queue.
* `completes_of_discipline`: whatever the schedule, they all end.
-/

set_option autoImplicit false

namespace Locks

open Transition

variable {ι P L : Type} [DecidableEq ι] [DecidableEq L]

/-- The operation on another lock. -/
def Op.map {M : Type} (f : L → M) : Op L → Op M
  | .take lock mode => .take (f lock) mode
  | .drop lock => .drop (f lock)
  | .work => .work

/-! ## The discipline -/

/-- An order of the locks, and the locks that guard others. -/
structure Discipline (L : Type) where
  level : L → Nat
  guard : L → Option L

namespace Discipline

/-- A task that holds these locks may take this one. -/
structure MayTake (D : Discipline L) (held : List (L × Mode)) (lock : L) : Prop where
  fresh : ∀ h ∈ held, h.1 ≠ lock
  guarded : ∀ g ∈ D.guard lock, ∃ h ∈ held, h.1 = g
  upwards : ∀ h ∈ held, D.level h.1 < D.level lock ∨ ∃ g ∈ D.guard h.1, (g, Mode.write) ∈ held

omit [DecidableEq L] in
theorem mayTake_iff {D : Discipline L} {held : List (L × Mode)} {lock : L} :
    D.MayTake held lock ↔ (∀ h ∈ held, h.1 ≠ lock) ∧ (∀ g ∈ D.guard lock, ∃ h ∈ held, h.1 = g) ∧
      ∀ h ∈ held, D.level h.1 < D.level lock ∨ ∃ g ∈ D.guard h.1, (g, Mode.write) ∈ held :=
  ⟨fun h => ⟨h.fresh, h.guarded, h.upwards⟩, fun ⟨h₁, h₂, h₃⟩ => ⟨h₁, h₂, h₃⟩⟩

/-- What is left of a program takes only locks that the task may take. -/
def Keeps (D : Discipline L) : List (L × Mode) → List (Op L) → Prop
  | _, [] => True
  | held, .take lock mode :: rest => D.MayTake held lock ∧ D.Keeps ((lock, mode) :: held) rest
  | held, .drop lock :: rest => D.Keeps (held.eraseP (·.1 = lock)) rest
  | held, .work :: rest => D.Keeps held rest

end Discipline

/-- The locks that a task holds when it has come through a piece of its program. -/
def holding : List (L × Mode) → List (Op L) → List (L × Mode)
  | held, [] => held
  | held, .take lock mode :: rest => holding ((lock, mode) :: held) rest
  | held, .drop lock :: rest => holding (held.eraseP (·.1 = lock)) rest
  | held, .work :: rest => holding held rest

variable {D : Discipline L} {held : List (L × Mode)}

namespace Discipline

/-- **A program of two pieces.** -/
theorem keeps_append {first rest : List (Op L)} :
    D.Keeps held (first ++ rest) ↔ D.Keeps held first ∧ D.Keeps (holding held first) rest := by
  induction first generalizing held with
  | nil => exact (iff_of_eq (true_and _)).symm
  | cons op first ih =>
    cases op with
    | take lock mode =>
      rw [List.cons_append, Keeps, Keeps, holding, ih, and_assoc]
    | drop lock => exact ih
    | work => exact ih

/-- **A loop** whose body gives back what it takes. -/
theorem keeps_flatMap {α : Type} {body : α → List (Op L)} (xs : List α)
    (hkeeps : ∀ x ∈ xs, D.Keeps held (body x)) (hback : ∀ x ∈ xs, holding held (body x) = held) :
    D.Keeps held (xs.flatMap body) := by
  induction xs with
  | nil => exact trivial
  | cons x xs ih =>
    obtain ⟨hx, hxs⟩ := List.forall_mem_cons.1 hkeeps
    obtain ⟨hbackx, hbacks⟩ := List.forall_mem_cons.1 hback
    rw [List.flatMap_cons, keeps_append, hbackx]
    exact ⟨hx, ih hxs hbacks⟩

theorem Keeps.after {t t' : Task P L} (h : D.Keeps t.held t.todo) (hstep : t.after = some t') :
    D.Keeps t'.held t'.todo := by
  unfold Task.after at hstep
  split at hstep
  · rename_i htodo
    cases hstep
    rw [htodo] at h
    exact h.2
  · rename_i htodo
    cases hstep
    rw [htodo] at h
    exact h
  · rename_i htodo
    cases hstep
    rw [htodo] at h
    exact h
  · rename_i htodo _
    cases hstep
    rw [htodo]
    exact trivial
  · cases hstep

theorem Keeps.failed {t t' : Task P L} (hstep : t.failed = some t') : D.Keeps t'.held t'.todo := by
  unfold Task.failed at hstep
  split at hstep <;> cases hstep
  exact trivial

/-- What a task waits for it may take. -/
theorem Keeps.mayTake {t : Task P L} (h : D.Keeps t.held t.todo) {lock : L} {mode : Mode}
    (hwants : t.wants = some (lock, mode)) : D.MayTake t.held lock := by
  unfold Task.wants at hwants
  split at hwants
  · rename_i htodo
    cases hwants
    rw [htodo] at h
    exact h.1
  · cases hwants

end Discipline

/-! ## What every step keeps -/

/-- Every task keeps to the discipline, and no two hold a lock in modes that conflict. -/
structure Disciplined (D : Discipline L) (s : Table ι (Task P L)) : Prop where
  keeps : ∀ i t, s.get i = some t → D.Keeps t.held t.todo
  exclusive : ∀ i j t u, i ≠ j → s.get i = some t → s.get j = some u → t.compatible u = true

section Runs

variable {program : P → List (Op L)} {s t : Table ι (Task P L)}

omit [DecidableEq ι] in
theorem disciplined_empty (D : Discipline L) : Disciplined D (Table.empty : Table ι (Task P L)) := by
  constructor
  · intro i t h
    cases h
  · intro i j t u _ h
    cases h

/-- A task that fits beside the others may be put in the place of the one of `i`. -/
theorem Disciplined.insert (h : Disciplined D s) {i : ι} {x : Task P L} (hx : D.Keeps x.held x.todo)
    (hfits : ∀ j u, j ≠ i → s.get j = some u → x.compatible u = true) :
    Disciplined D (s.insert i x) := by
  constructor
  · intro j u hj
    rcases Table.get_insert_cases hj with ⟨-, rfl⟩ | ⟨-, hj⟩
    · exact hx
    · exact h.keeps j u hj
  · intro j k u v hjk hj hk
    rcases Table.get_insert_cases hj with ⟨rfl, rfl⟩ | ⟨hji, hj'⟩
    · exact hfits k v hjk.symm ((Table.get_insert_ne _ hjk.symm).symm.trans hk)
    · rcases Table.get_insert_cases hk with ⟨rfl, rfl⟩ | ⟨-, hk'⟩
      · exact Task.compatible_comm (hfits j u hji hj')
      · exact h.exclusive j k u v hjk hj' hk'

/-- **One step.** -/
theorem Disciplined.next (hprogram : ∀ p, D.Keeps [] (program p)) (h : Disciplined D s)
    {e : Event ι P} (hstep : next program s e = some t) : Disciplined D t := by
  rcases next_cases hstep with ⟨i, p, -, -, rfl⟩ | ⟨i, x, y, -, hi, hfree, hx, rfl⟩ |
    ⟨i, x, -, -, -, rfl⟩ | ⟨i, x, y, -, hi, hx, rfl⟩
  · exact h.insert (hprogram p) fun j u _ _ => rfl
  · refine h.insert ((h.keeps i x hi).after hx) fun j u hji hj => ?_
    have hwaits := hfree j (Table.mem_keys_iff.2 ⟨u, hj⟩) hji u hj
    exact Task.compatible_after (h.exclusive i j x u hji.symm hi hj) hwaits hx
  · constructor
    · intro j u hj
      exact h.keeps j u (Table.get_remove_cases hj).2
    · intro j k u v hjk hj hk
      exact h.exclusive j k u v hjk (Table.get_remove_cases hj).2 (Table.get_remove_cases hk).2
  · refine h.insert (Discipline.Keeps.failed hx) fun j u hji hj => ?_
    rw [Task.compatible_iff, Task.held_of_failed hx]
    exact Task.compatible_iff.1 (h.exclusive i j x u hji.symm hi hj)

/-! ## Deadlock -/

/-- Tasks each of which waits for a lock that one of them has: for the task that has it, or in a queue
behind others that wait for it; or for a lock of its own. -/
def Stuck (s : Table ι (Task P L)) : Prop :=
  ∃ S : Finset ι, S.Nonempty ∧ ∀ i ∈ S, ∃ j ∈ S, ∃ t u, s.get i = some t ∧ s.get j = some u ∧
    t.asksFor u = true

omit [DecidableEq ι] in
theorem stuck_of_deadlocked (h : Deadlocked s) : Stuck s := by
  obtain ⟨S, hne, hS⟩ := h
  refine ⟨S, hne, fun i hi => ?_⟩
  obtain ⟨j, hj, -, t, u, ht, hu, hwaits⟩ := hS i hi
  exact ⟨j, hj, t, u, ht, hu, Task.asksFor_of_waitsFor hwaits⟩

omit [DecidableEq ι] in
theorem asksFor_iff {t u : Task P L} :
    t.asksFor u = true ↔ ∃ lock mode, t.wants = some (lock, mode) ∧ ∃ h ∈ u.held, h.1 = lock := by
  unfold Task.asksFor
  split
  · rename_i lock mode hwants
    simp [hwants]
  · rename_i hwants
    simp [hwants]

omit [DecidableEq ι] in
/-- **Waiting leads upwards.** -/
theorem Disciplined.level_lt (h : Disciplined D s) {i j : ι} {t u : Task P L} (ht : s.get i = some t)
    (hu : s.get j = some u) (hasks : t.asksFor u = true) {lock lock' : L} {mode mode' : Mode}
    (hwants : t.wants = some (lock, mode)) (hwants' : u.wants = some (lock', mode')) :
    D.level lock < D.level lock' := by
  obtain ⟨_, _, heq, k, hk, rfl⟩ := asksFor_iff.1 hasks
  obtain rfl := (Prod.mk.inj (Option.some_inj.1 (hwants.symm.trans heq))).1
  have htake := (h.keeps i t ht).mayTake hwants
  rcases ((h.keeps j u hu).mayTake hwants').upwards k hk with hlt | ⟨g, hg, hwrite⟩
  · exact hlt
  · -- whoever asks for the lock has its guard, which the other one holds to write
    obtain ⟨k', hk', rfl⟩ := htake.guarded g hg
    by_cases hij : i = j
    · subst hij
      cases ht.symm.trans hu
      exact absurd rfl (htake.fresh k hk)
    · have hcomp := Task.compatible_iff.1 (h.exclusive i j t u hij ht hu) k' hk' _ hwrite rfl
      cases hmode : k'.2 <;> rw [hmode] at hcomp <;> cases hcomp

omit [DecidableEq ι] in
/-- **Disciplined tasks are never stuck**: among tasks that wait, the one that waits for the highest
lock waits for none of the others. -/
theorem Disciplined.not_stuck (h : Disciplined D s) : ¬ Stuck s := by
  rintro ⟨S, hne, hS⟩
  let rank : ι → Nat := fun i => ((s.get i).bind Task.wants).elim 0 fun w => D.level w.1
  obtain ⟨i, hi, hmax⟩ := S.exists_max_image rank hne
  obtain ⟨j, hj, t, u, ht, hu, hasks⟩ := hS i hi
  obtain ⟨k, -, u', v, hu', -, hasks'⟩ := hS j hj
  cases hu.symm.trans hu'
  obtain ⟨lock, mode, hwants, -⟩ := asksFor_iff.1 hasks
  obtain ⟨lock', mode', hwants', -⟩ := asksFor_iff.1 hasks'
  have hlt := h.level_lt ht hu hasks hwants hwants'
  have hle := hmax j hj
  simp only [rank, ht, hu, Option.bind_some, hwants, hwants', Option.elim_some] at hle
  omega

/-! ## Completion -/

/-- How much a task still has to do: each lock that it takes is to be given back. -/
def Task.weight (t : Task P L) : Nat := 2 * t.todo.length + t.held.length + 1

/-- How much all tasks still have to do. -/
def weight (s : Table ι (Task P L)) : Nat := ∑ i ∈ s.keys, (s.get i).elim 0 Task.weight

omit [DecidableEq ι] in
theorem Task.weight_after {t t' : Task P L} (h : t.after = some t') : t'.weight < t.weight := by
  unfold Task.after at h
  split at h
  · rename_i htodo
    cases h
    simp only [Task.weight, htodo, List.length_cons]
    omega
  · rename_i lock rest htodo
    cases h
    have hle := List.length_eraseP_le (p := fun x : L × Mode => decide (x.1 = lock)) (l := t.held)
    simp only [Task.weight, htodo, List.length_cons]
    omega
  · rename_i htodo
    cases h
    simp only [Task.weight, htodo, List.length_cons]
    omega
  · rename_i hheld
    cases h
    simp only [Task.weight, hheld, List.length_cons]
    omega
  · cases h

omit [DecidableEq ι] [DecidableEq L] in
theorem Task.weight_failed {t t' : Task P L} (h : t.failed = some t') : t'.weight < t.weight := by
  unfold Task.failed at h
  split at h
  · rename_i htodo
    cases h
    simp only [Task.weight, htodo, List.length_cons, List.length_nil]
    omega
  · cases h

omit [DecidableEq L] in
theorem weight_insert_lt {i : ι} {x y : Task P L} (hi : s.get i = some x)
    (hlt : y.weight < x.weight) : weight (s.insert i y) < weight s := by
  have hmem : i ∈ s.keys := Table.mem_keys_iff.2 ⟨x, hi⟩
  unfold weight
  rw [Table.keys_insert, Finset.insert_eq_of_mem hmem]
  refine Finset.sum_lt_sum (fun j _ => ?_) ⟨i, hmem, ?_⟩
  · by_cases hj : j = i
    · subst hj
      rw [Table.get_insert_self, hi]
      exact hlt.le
    · rw [Table.get_insert_ne _ hj]
  · rw [Table.get_insert_self, hi]
    exact hlt

omit [DecidableEq L] in
theorem weight_remove_lt {i : ι} {x : Task P L} (hi : s.get i = some x) :
    weight (s.remove i) < weight s := by
  have hmem : i ∈ s.keys := Table.mem_keys_iff.2 ⟨x, hi⟩
  have hsame : weight (s.remove i) = ∑ j ∈ s.keys.erase i, (s.get j).elim 0 Task.weight :=
    Finset.sum_congr rfl fun j hj => by rw [Table.get_remove_ne (Finset.ne_of_mem_erase hj)]
  unfold weight at hsame ⊢
  rw [hsame, ← Finset.add_sum_erase s.keys _ hmem, hi, Option.elim_some]
  exact Nat.lt_add_of_pos_left (Nat.succ_pos _)

/-- The event is no new call. -/
def Event.continues : Event ι P → Prop
  | .call _ _ => False
  | _ => True

/-- **Every step leaves less to do.** -/
theorem weight_next {e : Event ι P} (hstep : next program s e = some t) (he : e.continues) :
    weight t < weight s := by
  rcases next_cases hstep with ⟨i, p, rfl, -, -⟩ | ⟨i, x, y, -, hi, -, hx, rfl⟩ |
    ⟨i, x, -, hi, -, rfl⟩ | ⟨i, x, y, -, hi, hx, rfl⟩
  · cases he
  · exact weight_insert_lt hi (Task.weight_after hx)
  · exact weight_remove_lt hi
  · exact weight_insert_lt hi (Task.weight_failed hx)

/-- However the tasks go on, they come to an end after a number of steps that is known beforehand, and
when none of them can go on, all have ended. -/
structure Completes (program : P → List (Op L)) (s : Table ι (Task P L)) : Prop where
  bounded : ∀ tr, Run (Steps (next program)) s tr → (∀ x ∈ tr, x.1.continues) →
    tr.length ≤ weight s
  ended : ∀ tr, Run (Steps (next program)) s tr → (∀ x ∈ tr, x.1.continues) →
    (∀ i t, next program (last s tr) (.step i) ≠ some t) → (last s tr).keys = ∅

theorem length_le_weight {tr : List (Event ι P × Table ι (Task P L))}
    (hrun : Run (Steps (next program)) s tr) (hcontinues : ∀ x ∈ tr, x.1.continues) :
    tr.length ≤ weight s := by
  induction tr generalizing s with
  | nil => exact Nat.zero_le _
  | cons x tr ih =>
    obtain ⟨hx, hrest⟩ := List.forall_mem_cons.1 hcontinues
    have hlt := weight_next hrun.1 hx
    have hle := ih hrun.2 hrest
    rw [List.length_cons]
    omega

/-- **Disciplined tasks all end.** -/
theorem Disciplined.completes (hprogram : ∀ p, D.Keeps [] (program p)) (h : Disciplined D s) :
    Completes program s := by
  refine ⟨fun tr hrun hcontinues => length_le_weight hrun hcontinues, fun tr hrun _ hend => ?_⟩
  have hlast : Disciplined D (last s tr) :=
    (throughout_of_inductive (fun _ _ _ h hstep => h.next hprogram hstep) h hrun).at_last
  by_contra hne
  obtain ⟨i, hi⟩ := Finset.nonempty_iff_ne_empty.2 hne
  obtain ⟨t, ht⟩ := Table.mem_keys_iff.1 hi
  obtain ⟨j, u, hstep⟩ := exists_step program ⟨i, t, ht⟩
    fun hdead => hlast.not_stuck (stuck_of_deadlocked hdead)
  exact hend j u hstep

/-- **Programs that keep to a discipline** never get stuck, in any run of any number of tasks, and
always complete. -/
theorem completes_of_discipline (hprogram : ∀ p, D.Keeps [] (program p))
    {tr : List (Event ι P × Table ι (Task P L))}
    (hrun : Run (Steps (next program)) Table.empty tr) :
    Throughout (fun s => ¬ Stuck s ∧ Completes program s) Table.empty tr :=
  (throughout_of_inductive (fun _ _ _ h hstep => h.next hprogram hstep) (disciplined_empty D)
    hrun).mono fun _ h => ⟨h.not_stuck, h.completes hprogram⟩

end Runs

end Locks
