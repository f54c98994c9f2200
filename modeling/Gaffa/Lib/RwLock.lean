import Gaffa.Lib.Table
import Gaffa.Lib.Transition

/-!
# Calls under a readers-writer lock

Any number of callers share a state behind a readers-writer lock.  A call is refused at once, or
it waits for the lock, takes it to read or to write, runs in small steps while it holds it, and
gives it back.

* `Serial.next`: every event keeps the run serial.
* `run_serial`: the calls that have ended gave the results that they give one after the other, in
  the order in which they ended, and the calls of each caller ended in the order it made them.
-/

set_option autoImplicit false

namespace RwLock

open Transition

variable {ι α σ φ ρ : Type}

/-- What calls do: `refuse` is the result of a call that does not ask for the lock, `step` what the
others do while they hold it; a local state `φ` says what is left to do, at first `enter`. -/
structure Calls (α σ φ ρ : Type) where
  refuse : α → Option ρ
  enter : α → φ
  writes : φ → Bool
  step : φ → σ → (φ ⊕ ρ) × σ

/-- From `f` on, the small steps of a call lead to a result and a state. -/
inductive Calls.Leads (C : Calls α σ φ ρ) : φ → σ → ρ × σ → Prop
  | ends {f : φ} {s s' : σ} {r : ρ} (h : C.step f s = (.inr r, s')) : C.Leads f s (r, s')
  | goes {f f' : φ} {s s' : σ} {x : ρ × σ} (h : C.step f s = (.inl f', s'))
      (rest : C.Leads f' s' x) : C.Leads f s x

theorem Calls.Leads.of_goes {C : Calls α σ φ ρ} {f f' : φ} {s s' : σ} {x : ρ × σ}
    (h : C.Leads f s x) (hstep : C.step f s = (.inl f', s')) : C.Leads f' s' x := by
  cases h with
  | ends h =>
    rw [hstep] at h
    cases h
  | goes h rest =>
    rw [hstep] at h
    cases h
    exact rest

theorem Calls.Leads.of_ends {C : Calls α σ φ ρ} {f : φ} {r : ρ} {s s' : σ} {x : ρ × σ}
    (h : C.Leads f s x) (hstep : C.step f s = (.inr r, s')) : x = (r, s') := by
  cases h with
  | ends h =>
    rw [hstep] at h
    cases h
    rfl
  | goes h rest =>
    rw [hstep] at h
    cases h

/-- The small steps of a call amount to `outcome`, and a call that reads changes nothing. -/
structure Calls.Amounts (C : Calls α σ φ ρ) (outcome : α → σ → ρ × σ) : Prop where
  refuses : ∀ a r, C.refuse a = some r → ∀ s, outcome a s = (r, s)
  leads : ∀ a, C.refuse a = none → ∀ s, C.Leads (C.enter a) s (outcome a s)
  mode : ∀ f s f' s', C.step f s = (.inl f', s') → C.writes f' = C.writes f
  reads : ∀ f s, C.writes f = false → (C.step f s).2 = s

/-- Where a call is: before it has the lock, in it, or about to give it back. -/
inductive Phase (α φ : Type) where
  | waiting (request : α)
  | inside (request : α) (now : φ)
  | leaving (request : α)

/-- The call has the lock. -/
def Phase.holds : Phase α φ → Bool
  | .waiting _ => false
  | .inside .. => true
  | .leaving _ => true

def Phase.request : Phase α φ → α
  | .waiting request => request
  | .inside request _ => request
  | .leaving request => request

/-- The shared state, the call that each caller makes, the calls made so far, and the calls that
have ended, with their results. -/
structure State (ι α σ φ ρ : Type) where
  shared : σ
  calls : Table ι (Phase α φ)
  issued : List (ι × α)
  ended : List (ι × α × ρ)

def State.init (s : σ) : State ι α σ φ ρ := ⟨s, Table.empty, [], []⟩

inductive Event (ι α : Type) where
  | call (i : ι) (request : α)
  | acquire (i : ι)
  | step (i : ι)
  | release (i : ι)

/-- Whoever has the lock has it to read, and `a` wants it to read; or nobody has it. -/
def Free (C : Calls α σ φ ρ) (s : State ι α σ φ ρ) (a : α) : Prop :=
  ∀ k p, s.calls.get k = some p → p.holds = true →
    C.writes (C.enter p.request) = false ∧ C.writes (C.enter a) = false

instance decidableFree (C : Calls α σ φ ρ) (s : State ι α σ φ ρ) (a : α) : Decidable (Free C s a) :=
  decidable_of_iff (∀ k ∈ s.calls.keys, ∀ p ∈ s.calls.get k, p.holds = true →
    C.writes (C.enter p.request) = false ∧ C.writes (C.enter a) = false) (by
    constructor
    · intro h k p hp
      exact h k (Table.mem_keys_iff.2 ⟨p, hp⟩) p hp
    · intro h k _ p hp
      exact h k p hp)

variable [DecidableEq ι]

/-- The steps of a run. -/
def next (C : Calls α σ φ ρ) (s : State ι α σ φ ρ) : Event ι α → Option (State ι α σ φ ρ)
  | .call i a =>
    match s.calls.get i with
    | some _ => none
    | none =>
      match C.refuse a with
      | some r => some { s with issued := s.issued ++ [(i, a)], ended := s.ended ++ [(i, a, r)] }
      | none => some { s with
          calls := s.calls.insert i (.waiting a), issued := s.issued ++ [(i, a)] }
  | .acquire i =>
    match s.calls.get i with
    | some (.waiting a) =>
      if Free C s a then some { s with calls := s.calls.insert i (.inside a (C.enter a)) }
      else none
    | _ => none
  | .step i =>
    match s.calls.get i with
    | some (.inside a now) =>
      match C.step now s.shared with
      | (.inl now, shared) =>
        some { s with shared := shared, calls := s.calls.insert i (.inside a now) }
      | (.inr r, shared) => some { s with
          shared := shared
          calls := s.calls.insert i (.leaving a)
          ended := s.ended ++ [(i, a, r)] }
    | _ => none
  | .release i =>
    match s.calls.get i with
    | some (.leaving _) => some { s with calls := s.calls.remove i }
    | _ => none

/-! ## Calls one after the other -/

/-- The calls, made one after the other from `s`, give the results and end in `t`. -/
def Replay (outcome : α → σ → ρ × σ) : σ → List (ι × α × ρ) → σ → Prop
  | s, [], t => s = t
  | s, (_, a, r) :: rest, t => ∃ s', outcome a s = (r, s') ∧ Replay outcome s' rest t

omit [DecidableEq ι] in
theorem Replay.snoc {outcome : α → σ → ρ × σ} {i : ι} {a : α} {r : ρ} {t u : σ} :
    ∀ {s : σ} {l : List (ι × α × ρ)}, Replay outcome s l t → outcome a t = (r, u) →
      Replay outcome s (l ++ [(i, a, r)]) u
  | _, [], h, hr => by
    cases h
    exact ⟨u, hr, rfl⟩
  | _, _ :: _, h, hr => by
    obtain ⟨s', hs', hrest⟩ := h
    exact ⟨s', hs', hrest.snoc hr⟩

/-- The call that a caller waits for. -/
def pending : Option (Phase α φ) → List α
  | some (.waiting a) => [a]
  | some (.inside a _) => [a]
  | _ => []

/-- A run is as good as one call after the other: `base` is the state that the ended calls lead to,
and calls in progress are on their way from it. -/
structure Serial (C : Calls α σ φ ρ) (outcome : α → σ → ρ × σ) (first : σ)
    (s : State ι α σ φ ρ) (base : σ) : Prop where
  replay : Replay outcome first s.ended base
  asked : ∀ i p, s.calls.get i = some p → C.refuse p.request = none
  inside : ∀ i a now, s.calls.get i = some (.inside a now) →
    C.writes now = C.writes (C.enter a) ∧ C.Leads now s.shared (outcome a base)
  alone : ∀ i p, s.calls.get i = some p → p.holds = true → C.writes (C.enter p.request) = true →
    ∀ k q, s.calls.get k = some q → q.holds = true → k = i
  settled : (∀ i a now, s.calls.get i = some (.inside a now) →
    C.writes (C.enter a) = false) → s.shared = base
  order : ∀ i, (s.issued.filter (·.1 = i)).map Prod.snd =
    (s.ended.filter (·.1 = i)).map (fun e => e.2.1) ++ pending (s.calls.get i)

section Step

variable {C : Calls α σ φ ρ} {outcome : α → σ → ρ × σ} {first base : σ}
  {s t : State ι α σ φ ρ} {i : ι}

theorem serial_init (C : Calls α σ φ ρ) (outcome : α → σ → ρ × σ) (first : σ) :
    Serial C outcome first (State.init first : State ι α σ φ ρ) first := by
  constructor
  · rfl
  · intro i p h
    cases h
  · intro i a now h
    cases h
  · intro i p h
    cases h
  · intro _
    rfl
  · intro i
    rfl

theorem asked_insert {calls : Table ι (Phase α φ)} {q : Phase α φ}
    (h : ∀ k p, calls.get k = some p → C.refuse p.request = none)
    (hq : C.refuse q.request = none) :
    ∀ k p, (calls.insert i q).get k = some p → C.refuse p.request = none := by
  intro k p hk
  rcases Table.get_insert_cases hk with ⟨-, rfl⟩ | ⟨-, hk⟩
  · exact hq
  · exact h k p hk

/-- A call that has the lock keeps it over a step: whoever writes is still alone. -/
theorem Serial.alone_insert (h : Serial C outcome first s base) {now : Phase α φ}
    (next : Phase α φ) (hget : s.calls.get i = some now) (hholds : now.holds = true)
    (hrequest : next.request = now.request) {k l : ι} {p q : Phase α φ}
    (hk : (s.calls.insert i next).get k = some p) (hp : p.holds = true)
    (hwrites : C.writes (C.enter p.request) = true)
    (hl : (s.calls.insert i next).get l = some q) (hq : q.holds = true) : l = k := by
  have hold : ∀ l q, (s.calls.insert i next).get l = some q → q.holds = true →
      ∃ q', s.calls.get l = some q' ∧ q'.holds = true ∧ q'.request = q.request := by
    intro l q hl hq
    rcases Table.get_insert_cases hl with ⟨rfl, rfl⟩ | ⟨-, hl⟩
    · exact ⟨now, hget, hholds, hrequest.symm⟩
    · exact ⟨q, hl, hq, rfl⟩
  obtain ⟨p', hp', hholds', hstart⟩ := hold k p hk hp
  obtain ⟨q', hq', hq'holds, -⟩ := hold l q hl hq
  exact h.alone k p' hp' hholds' (by rw [hstart]; exact hwrites) l q' hq' hq'holds

/-- A call that goes on is waited for as before. -/
theorem pending_insert {calls : Table ι (Phase α φ)} {now : Phase α φ} (next : Phase α φ)
    (hget : calls.get i = some now) (hnext : pending (some next) = pending (some now)) (k : ι) :
    pending ((calls.insert i next).get k) = pending (calls.get k) := by
  rw [Table.get_insert]
  split
  · rename_i hk
    rw [hk, hget, hnext]
  · rfl

/-- Where no call is made and none ends, each caller's calls stay in order. -/
theorem Serial.order_of_pending (h : Serial C outcome first s base) {calls : Table ι (Phase α φ)}
    (hpending : ∀ k, pending (calls.get k) = pending (s.calls.get k)) (k : ι) :
    (s.issued.filter (·.1 = k)).map Prod.snd =
      (s.ended.filter (·.1 = k)).map (fun e => e.2.1) ++ pending (calls.get k) := by
  rw [hpending k]
  exact h.order k

theorem Serial.call (h : Serial C outcome first s base) {a : α}
    (hnone : s.calls.get i = none) (ha : C.refuse a = none) :
    Serial C outcome first { s with
      calls := s.calls.insert i (.waiting a), issued := s.issued ++ [(i, a)] } base := by
  constructor
  · exact h.replay
  · exact asked_insert h.asked ha
  · intro k f now hk
    rcases Table.get_insert_cases hk with ⟨-, hp⟩ | ⟨-, hk⟩
    · cases hp
    · exact h.inside k f now hk
  · intro k p hk hholds hwrites l q hl hq
    rcases Table.get_insert_cases hk with ⟨-, rfl⟩ | ⟨-, hk⟩
    · cases hholds
    · rcases Table.get_insert_cases hl with ⟨-, rfl⟩ | ⟨-, hl⟩
      · cases hq
      · exact h.alone k p hk hholds hwrites l q hl hq
  · intro hreaders
    apply h.settled
    intro k f now hk
    have hne : k ≠ i := by
      rintro rfl
      rw [hnone] at hk
      cases hk
    exact hreaders k f now ((Table.get_insert_ne _ hne).trans hk)
  · intro k
    have hk := h.order k
    simp only [List.filter_append, List.map_append, Table.get_insert, hk]
    by_cases hki : k = i
    · subst hki
      simp [hnone, pending]
    · simp [hki, Ne.symm hki]

theorem Serial.refuse (hC : C.Amounts outcome) (h : Serial C outcome first s base) {a : α}
    {r : ρ} (hnone : s.calls.get i = none) (hr : C.refuse a = some r) :
    Serial C outcome first { s with
      issued := s.issued ++ [(i, a)], ended := s.ended ++ [(i, a, r)] } base := by
  refine ⟨h.replay.snoc (hC.refuses a r hr base), h.asked, h.inside, h.alone, h.settled, ?_⟩
  intro k
  have hk := h.order k
  simp only [List.filter_append, List.map_append, hk]
  by_cases hki : k = i
  · subst hki
    simp [hnone, pending]
  · simp [Ne.symm hki]

theorem Serial.acquire (hC : C.Amounts outcome) (h : Serial C outcome first s base)
    {a : α} (hget : s.calls.get i = some (.waiting a)) (hfree : Free C s a) :
    Serial C outcome first
      { s with calls := s.calls.insert i (.inside a (C.enter a)) } base := by
  have hsettled : s.shared = base := by
    apply h.settled
    intro k f now hk
    exact (hfree k _ hk rfl).1
  have hasked := h.asked i _ hget
  constructor
  · exact h.replay
  · exact asked_insert h.asked hasked
  · intro k f now hk
    rcases Table.get_insert_cases hk with ⟨-, hp⟩ | ⟨-, hk⟩
    · cases hp
      exact ⟨rfl, hsettled ▸ hC.leads a hasked s.shared⟩
    · exact h.inside k f now hk
  · intro k p hk hholds hwrites l q hl hq
    rcases Table.get_insert_cases hk with ⟨rfl, rfl⟩ | ⟨-, hk⟩
    · rcases Table.get_insert_cases hl with ⟨rfl, -⟩ | ⟨-, hl⟩
      · rfl
      · rw [Phase.request, (hfree l q hl hq).2] at hwrites
        cases hwrites
    · rw [(hfree k p hk hholds).1] at hwrites
      cases hwrites
  · intro _
    exact hsettled
  · exact h.order_of_pending fun k => pending_insert (.inside a (C.enter a)) hget rfl k

theorem Serial.goes (hC : C.Amounts outcome) (h : Serial C outcome first s base)
    {a : α} {now now' : φ} {shared : σ} (hget : s.calls.get i = some (.inside a now))
    (hstep : C.step now s.shared = (.inl now', shared)) :
    Serial C outcome first
      { s with shared := shared, calls := s.calls.insert i (.inside a now') } base := by
  have hwrites := hC.mode _ _ _ _ hstep
  obtain ⟨hmode, hbase⟩ := h.inside i a now hget
  -- a call that reads changes nothing; one that writes is alone
  have hshared : C.writes (C.enter a) = false → shared = s.shared := by
    intro hread
    have hkeep := hC.reads now s.shared (hmode.trans hread)
    rw [hstep] at hkeep
    exact hkeep
  constructor
  · exact h.replay
  · exact asked_insert h.asked (h.asked i (.inside a now) hget)
  · intro k f g hk
    rcases Table.get_insert_cases hk with ⟨-, hp⟩ | ⟨hne, hk⟩
    · cases hp
      exact ⟨hwrites.trans hmode, hbase.of_goes hstep⟩
    · cases hmodes : C.writes (C.enter a) with
      | true => exact absurd (h.alone i _ hget rfl hmodes k _ hk rfl) hne
      | false =>
        simp only [hshared hmodes]
        exact h.inside k f g hk
  · intro k p hk hholds hw l q hl hq
    exact h.alone_insert (.inside a now') hget rfl rfl hk hholds hw hl hq
  · intro hreaders
    have hread : C.writes (C.enter a) = false := hreaders i a now' (Table.get_insert_self ..)
    simp only
    rw [hshared hread]
    apply h.settled
    intro k f g hk
    by_cases hki : k = i
    · subst hki
      rw [hget] at hk
      cases hk
      exact hread
    · exact hreaders k f g ((Table.get_insert_ne _ hki).trans hk)
  · exact h.order_of_pending fun k => pending_insert (.inside a now') hget rfl k

/-- **A call that ends** has done at once what it did in small steps. -/
theorem Serial.ends (hC : C.Amounts outcome) (h : Serial C outcome first s base) {a : α} {now : φ}
    {r : ρ} {shared : σ} (hget : s.calls.get i = some (.inside a now))
    (hstep : C.step now s.shared = (.inr r, shared)) :
    outcome a base = (r, shared) ∧ Serial C outcome first { s with
      shared := shared
      calls := s.calls.insert i (.leaving a)
      ended := s.ended ++ [(i, a, r)] } shared := by
  obtain ⟨hmode, hbase⟩ := h.inside i a now hget
  have hresult : outcome a base = (r, shared) := hbase.of_ends hstep
  have hsame : C.writes (C.enter a) = false → shared = s.shared ∧ shared = base := by
    intro hread
    have hkeep := hC.reads now s.shared (hmode.trans hread)
    rw [hstep] at hkeep
    have hsettled : s.shared = base := by
      apply h.settled
      intro k f g hk
      cases hmodes : C.writes (C.enter f) with
      | false => rfl
      | true =>
        have hki := h.alone k _ hk rfl hmodes i _ hget rfl
        subst hki
        rw [hget] at hk
        cases hk
        rw [hread] at hmodes
        cases hmodes
    exact ⟨hkeep, Eq.trans hkeep hsettled⟩
  have hasked : C.refuse a = none := h.asked i (.inside a now) hget
  refine ⟨hresult, h.replay.snoc hresult, asked_insert h.asked hasked, ?_, ?_, fun _ => rfl, ?_⟩
  · intro k f g hk
    rcases Table.get_insert_cases hk with ⟨-, hp⟩ | ⟨hne, hk⟩
    · cases hp
    · cases hmodes : C.writes (C.enter a) with
      | true => exact absurd (h.alone i _ hget rfl hmodes k _ hk rfl) hne
      | false =>
        obtain ⟨hold, hnew⟩ := hsame hmodes
        obtain ⟨hw, ho⟩ := h.inside k f g hk
        rw [← hnew, hold] at ho
        exact ⟨hw, hold ▸ ho⟩
  · intro k p hk hholds hw l q hl hq
    exact h.alone_insert (.leaving a) hget rfl rfl hk hholds hw hl hq
  · intro k
    have hk := h.order k
    simp only [List.filter_append, List.map_append, Table.get_insert, hk]
    by_cases hki : k = i
    · subst hki
      simp [hget, pending]
    · simp [hki, Ne.symm hki]

theorem Serial.release (h : Serial C outcome first s base) {a : α}
    (hget : s.calls.get i = some (.leaving a)) :
    Serial C outcome first { s with calls := s.calls.remove i } base := by
  constructor
  · exact h.replay
  · intro k p hk
    exact h.asked k p (Table.get_remove_cases hk).2
  · intro k f g hk
    exact h.inside k f g (Table.get_remove_cases hk).2
  · intro k p hk hholds hw l q hl hq
    have hk' := (Table.get_remove_cases hk).2
    have hl' := (Table.get_remove_cases hl).2
    exact h.alone k p hk' hholds hw l q hl' hq
  · intro hreaders
    apply h.settled
    intro k f g hk
    have hne : k ≠ i := by
      rintro rfl
      rw [hget] at hk
      cases hk
    exact hreaders k f g ((Table.get_remove_ne hne).trans hk)
  · apply h.order_of_pending
    intro k
    rw [Table.get_remove]
    split
    · rename_i hk
      rw [hk, hget]
      rfl
    · rfl

/-- **Every event** keeps the run serial. -/
theorem Serial.next (hC : C.Amounts outcome) {e : Event ι α} (h : Serial C outcome first s base)
    (hstep : next C s e = some t) : ∃ base', Serial C outcome first t base' := by
  cases e with
  | call i a =>
    simp only [RwLock.next] at hstep
    split at hstep
    · cases hstep
    · rename_i hnone
      split at hstep
      · rename_i r hr
        cases hstep
        exact ⟨base, h.refuse hC hnone hr⟩
      · rename_i hasked
        cases hstep
        exact ⟨base, h.call hnone hasked⟩
  | acquire i =>
    simp only [RwLock.next] at hstep
    split at hstep
    · rename_i a hget
      split at hstep
      · rename_i hfree
        cases hstep
        exact ⟨base, h.acquire hC hget hfree⟩
      · cases hstep
    · cases hstep
  | step i =>
    simp only [RwLock.next] at hstep
    split at hstep
    · rename_i a now hget
      split at hstep
      · rename_i now' shared hgoes
        cases hstep
        exact ⟨base, h.goes hC hget hgoes⟩
      · rename_i r shared hends
        cases hstep
        exact ⟨shared, (h.ends hC hget hends).2⟩
    · cases hstep
  | release i =>
    simp only [RwLock.next] at hstep
    split at hstep
    · rename_i a hget
      cases hstep
      exact ⟨base, h.release hget⟩
    · cases hstep

/-- **Runs are serial**, in every state. -/
theorem run_serial (hC : C.Amounts outcome) {first : σ}
    {tr : List (Event ι α × State ι α σ φ ρ)}
    (hrun : Run (Steps (RwLock.next C)) (State.init first) tr) :
    Throughout (fun s => ∃ base, Serial C outcome first s base) (State.init first) tr := by
  refine throughout_of_inductive ?_ ⟨first, serial_init C outcome first⟩ hrun
  rintro s e t ⟨base, h⟩ hstep
  exact h.next hC hstep

end Step

end RwLock
