import Mathlib.Data.List.Nodup
import Mathlib.Tactic.TypeStar

/-!
# A connection on which requests are answered in order

Requests are numbered as they are sent, the peer answers the oldest request that has no answer yet,
and a reader takes the oldest response.

* `InOrder.read_iff`: a reader whose own request was the last one reads the response to it exactly
  when nothing else is pending.
* `Turns.Sound.answers_iff`: parties that take turns under a lock, and may give the lock up with
  their response unread, read their own responses exactly as long as nobody has given up.
-/

set_option autoImplicit false

/-- Requests without an answer and responses that nobody has read, oldest first, each with the number
of its request. -/
structure Wire (Q R : Type*) where
  sent : Nat
  unanswered : List (Nat × Q)
  unread : List (Nat × R)

namespace Wire

variable {Q R : Type*}

/-- A new connection. -/
def new : Wire Q R := ⟨0, [], []⟩

/-- A request is sent. -/
def send (request : Q) (w : Wire Q R) : Wire Q R :=
  { w with sent := w.sent + 1, unanswered := w.unanswered ++ [(w.sent, request)] }

/-- The peer answers the oldest request. -/
def answer (response : R) (w : Wire Q R) : Option (Wire Q R) :=
  match w.unanswered with
  | [] => none
  | (n, _) :: rest => some { w with unanswered := rest, unread := w.unread ++ [(n, response)] }

/-- The oldest response is read. -/
def read (w : Wire Q R) : Option ((Nat × R) × Wire Q R) :=
  match w.unread with
  | [] => none
  | response :: rest => some (response, { w with unread := rest })

/-- The numbers of the requests whose responses are not read yet, oldest first. -/
def pending (w : Wire Q R) : List Nat := w.unread.map Prod.fst ++ w.unanswered.map Prod.fst

@[simp] theorem pending_send (request : Q) (w : Wire Q R) :
    (w.send request).pending = w.pending ++ [w.sent] := by
  simp [pending, send]

theorem pending_answer {response : R} {w w' : Wire Q R} (h : w.answer response = some w') :
    w'.pending = w.pending := by
  unfold answer at h
  split at h
  · cases h
  · rename_i n request rest hrest
    cases h
    simp [pending, hrest]

theorem pending_read {n : Nat} {response : R} {w w' : Wire Q R}
    (h : w.read = some ((n, response), w')) : w.pending = n :: w'.pending := by
  unfold read at h
  split at h
  · cases h
  · rename_i first rest hrest
    cases h
    simp [pending, hrest]

theorem answer_eq_some {response : R} {w w' : Wire Q R} (h : w.answer response = some w') :
    ∃ n request, w.unanswered = (n, request) :: w'.unanswered ∧
      w'.unread = w.unread ++ [(n, response)] := by
  unfold answer at h
  split at h
  · cases h
  · rename_i n request rest hrest
    cases h
    exact ⟨n, request, hrest, rfl⟩

theorem read_eq_some {n : Nat} {response : R} {w w' : Wire Q R}
    (h : w.read = some ((n, response), w')) :
    w.unread = (n, response) :: w'.unread ∧ w'.unanswered = w.unanswered := by
  unfold read at h
  split at h
  · cases h
  · rename_i first rest hrest
    cases h
    exact ⟨hrest, rfl⟩

theorem sent_answer {response : R} {w w' : Wire Q R} (h : w.answer response = some w') :
    w'.sent = w.sent := by
  unfold answer at h
  split at h <;> cases h
  rfl

theorem sent_read {n : Nat} {response : R} {w w' : Wire Q R}
    (h : w.read = some ((n, response), w')) : w'.sent = w.sent := by
  unfold read at h
  split at h <;> cases h
  rfl

/-- Pending requests are in the order in which they were sent. -/
structure InOrder (w : Wire Q R) : Prop where
  sorted : w.pending.Pairwise (· < ·)
  old : ∀ n ∈ w.pending, n < w.sent

theorem inOrder_new : InOrder (new : Wire Q R) :=
  ⟨List.Pairwise.nil, fun _ h => absurd h List.not_mem_nil⟩

theorem InOrder.send {w : Wire Q R} (h : w.InOrder) (request : Q) : (w.send request).InOrder := by
  constructor
  · rw [pending_send, List.pairwise_append]
    refine ⟨h.sorted, List.pairwise_singleton _ _, ?_⟩
    intro n hn m hm
    rw [List.mem_singleton.1 hm]
    exact h.old n hn
  · intro n hn
    rw [pending_send, List.mem_append, List.mem_singleton] at hn
    rcases hn with hn | rfl
    · exact Nat.lt_succ_of_lt (h.old n hn)
    · exact Nat.lt_succ_self _

theorem InOrder.answer {response : R} {w w' : Wire Q R} (h : w.InOrder)
    (hanswer : w.answer response = some w') : w'.InOrder := by
  refine ⟨?_, ?_⟩
  · rw [pending_answer hanswer]
    exact h.sorted
  · rw [pending_answer hanswer, sent_answer hanswer]
    exact h.old

theorem InOrder.read {n : Nat} {response : R} {w w' : Wire Q R} (h : w.InOrder)
    (hread : w.read = some ((n, response), w')) : w'.InOrder := by
  have hsorted := h.sorted
  have hold := h.old
  rw [pending_read hread] at hsorted hold
  refine ⟨(List.pairwise_cons.1 hsorted).2, ?_⟩
  rw [sent_read hread]
  exact fun m hm => hold m (List.mem_cons_of_mem _ hm)

section Numbers

variable {w : Wire Q R} {n : Nat}

/-- A request that is answered is not waiting for an answer. -/
theorem InOrder.not_unanswered (h : w.InOrder) {request : Q} {response : R}
    (hunread : (n, response) ∈ w.unread) : (n, request) ∉ w.unanswered := by
  intro hunanswered
  have hlt := (List.pairwise_append.1 h.sorted).2.2 n
    (List.mem_map.2 ⟨_, hunread, rfl⟩) n (List.mem_map.2 ⟨_, hunanswered, rfl⟩)
  omega

theorem eq_of_sorted {β : Type*} {l : List (Nat × β)} (h : (l.map Prod.fst).Pairwise (· < ·))
    {x y : β} (hx : (n, x) ∈ l) (hy : (n, y) ∈ l) : x = y := by
  have hnodup : (l.map Prod.fst).Nodup := h.imp fun hlt => Nat.ne_of_lt hlt
  exact congrArg Prod.snd (List.inj_on_of_nodup_map hnodup hx hy rfl)

theorem InOrder.unread_unique (h : w.InOrder) {x y : R} (hx : (n, x) ∈ w.unread)
    (hy : (n, y) ∈ w.unread) : x = y :=
  eq_of_sorted (List.pairwise_append.1 h.sorted).1 hx hy

theorem InOrder.unanswered_unique (h : w.InOrder) {x y : Q} (hx : (n, x) ∈ w.unanswered)
    (hy : (n, y) ∈ w.unanswered) : x = y :=
  eq_of_sorted (List.pairwise_append.1 h.sorted).2.1 hx hy

end Numbers

/-- **Who reads the response to its own request**: a reader that sent the last request, exactly when
no other one is pending. -/
theorem InOrder.read_iff {n m : Nat} {response : R} {w w' : Wire Q R} (h : w.InOrder)
    (hread : w.read = some ((n, response), w')) (hlast : w.pending.getLast? = some m) :
    n = m ↔ w.pending.length = 1 := by
  have hsorted := h.sorted
  rw [pending_read hread] at hsorted hlast ⊢
  cases hrest : w'.pending with
  | nil =>
    rw [hrest] at hlast
    exact iff_of_true (Option.some_inj.1 hlast) rfl
  | cons k rest =>
    refine iff_of_false ?_ ?_
    · rw [hrest, List.getLast?_cons_cons] at hlast
      rw [hrest] at hsorted
      exact Nat.ne_of_lt ((List.pairwise_cons.1 hsorted).1 m (List.mem_of_getLast? hlast))
    · rw [List.length_cons, List.length_cons]
      omega

end Wire

/-! ## Parties that take turns -/

/-- A connection under a lock: who holds the lock, with the number of its request if that is sent, and
how many requests were sent by parties that gave up the lock before the response. -/
structure Turns (P Q R : Type*) where
  holder : Option (P × Option Nat)
  wire : Wire Q R
  orphans : Nat

namespace Turns

variable {P Q R : Type*}

/-- A new connection, the lock free. -/
def new : Turns P Q R := ⟨none, Wire.new, 0⟩

/-- A party takes the lock. -/
def acquire (p : P) (t : Turns P Q R) : Option (Turns P Q R) :=
  match t.holder with
  | none => some { t with holder := some (p, none) }
  | some _ => none

/-- The party with the lock sends its request. -/
def send [DecidableEq P] (p : P) (request : Q) (t : Turns P Q R) : Option (Turns P Q R) :=
  if t.holder = some (p, none) then
    some { t with holder := some (p, some t.wire.sent), wire := t.wire.send request }
  else none

/-- The party whose request was sent takes the oldest response and frees the lock. -/
def read [DecidableEq P] (p : P) (t : Turns P Q R) : Option (R × Turns P Q R) :=
  match t.holder with
  | some (p', some _) =>
    if p' = p then
      t.wire.read.map fun x => (x.1.2, { t with holder := none, wire := x.2 })
    else none
  | _ => none

/-- The party gives up; if it has the lock, the lock is free again. -/
def giveUp [DecidableEq P] (p : P) (t : Turns P Q R) : Turns P Q R :=
  match t.holder with
  | some (p', number) =>
    if p' = p then { t with holder := none, orphans := t.orphans + number.toList.length } else t
  | none => t

/-- The party has sent its request and waits for the response. -/
def waits [DecidableEq P] (p : P) (t : Turns P Q R) : Bool :=
  match t.holder with
  | some (p', some _) => p' = p
  | _ => false

/-- The peer answers the oldest request. -/
def answer (response : R) (t : Turns P Q R) : Option (Turns P Q R) :=
  (t.wire.answer response).map fun wire => { t with wire := wire }

/-- The number of the request that the holder of the lock has sent. -/
def awaited (t : Turns P Q R) : Option Nat := t.holder.bind Prod.snd

/-- The oldest response is the one to the request of the party, if that waits for a response. -/
def Answers (p : P) (t : Turns P Q R) : Prop :=
  ∀ m n response wire, t.holder = some (p, some m) →
    t.wire.read = some ((n, response), wire) → n = m

/-- The request that was sent last is that of the holder, and all others that are pending were
given up. -/
structure Sound (t : Turns P Q R) : Prop where
  inOrder : t.wire.InOrder
  length : t.wire.pending.length = t.orphans + t.awaited.toList.length
  last : ∀ n, t.awaited = some n → t.wire.pending.getLast? = some n

theorem sound_new : Sound (new : Turns P Q R) :=
  ⟨Wire.inOrder_new, rfl, fun _ h => nomatch h⟩

section Step

variable {p : P} {t t' : Turns P Q R}

theorem Sound.acquire (h : t.Sound) (hstep : t.acquire p = some t') : t'.Sound := by
  unfold Turns.acquire at hstep
  split at hstep
  · rename_i hfree
    cases hstep
    refine ⟨h.inOrder, ?_, fun _ hn => nomatch hn⟩
    rw [h.length]
    simp [awaited, hfree]
  · cases hstep

theorem Sound.answer {response : R} (h : t.Sound) (hstep : t.answer response = some t') :
    t'.Sound := by
  obtain ⟨wire, hanswer, rfl⟩ := Option.map_eq_some_iff.1 hstep
  refine ⟨h.inOrder.answer hanswer, ?_, ?_⟩
  · rw [Wire.pending_answer hanswer]
    exact h.length
  · rw [Wire.pending_answer hanswer]
    exact h.last

theorem orphans_acquire (hstep : t.acquire p = some t') : t'.orphans = t.orphans := by
  unfold Turns.acquire at hstep
  split at hstep <;> cases hstep
  rfl

theorem holder_acquire (hstep : t.acquire p = some t') :
    t.holder = none ∧ t'.holder = some (p, none) := by
  unfold Turns.acquire at hstep
  split at hstep
  · rename_i hfree
    cases hstep
    exact ⟨hfree, rfl⟩
  · cases hstep

theorem wire_acquire (hstep : t.acquire p = some t') : t'.wire = t.wire := by
  unfold Turns.acquire at hstep
  split at hstep <;> cases hstep
  rfl

theorem orphans_answer {response : R} (hstep : t.answer response = some t') :
    t'.orphans = t.orphans := by
  obtain ⟨wire, -, rfl⟩ := Option.map_eq_some_iff.1 hstep
  rfl

variable [DecidableEq P]

theorem orphans_send {request : Q} (hstep : t.send p request = some t') :
    t'.orphans = t.orphans := by
  unfold Turns.send at hstep
  split at hstep <;> cases hstep
  rfl

theorem unanswered_send {request : Q} (hstep : t.send p request = some t') :
    t'.wire.unanswered = t.wire.unanswered ++ [(t.wire.sent, request)] := by
  unfold Turns.send at hstep
  split at hstep <;> cases hstep
  rfl

theorem unread_send {request : Q} (hstep : t.send p request = some t') :
    t'.wire.unread = t.wire.unread := by
  unfold Turns.send at hstep
  split at hstep <;> cases hstep
  rfl

theorem awaited_of_send {request : Q} (hstep : t.send p request = some t') : t.awaited = none := by
  unfold Turns.send at hstep
  split at hstep
  · rename_i hholder
    rw [awaited, hholder]
    rfl
  · cases hstep

/-- Who has given up has no turn. -/
theorem holder_giveUp (p : P) (t : Turns P Q R) (number : Option Nat) :
    (t.giveUp p).holder ≠ some (p, number) := by
  unfold giveUp
  split
  · rename_i p' number' hholder
    split
    · exact fun habsurd => by cases habsurd
    · rename_i hne
      rw [hholder]
      exact fun habsurd => hne (Prod.mk.inj (Option.some_inj.1 habsurd)).1
  · rename_i hfree
    rw [hfree]
    exact fun habsurd => by cases habsurd

theorem orphans_giveUp (hwaits : ¬ t.waits p = true) : (t.giveUp p).orphans = t.orphans := by
  unfold giveUp
  split
  · rename_i p' number hholder
    split
    · rename_i hp
      cases number with
      | none => rfl
      | some n => exact absurd (by simp [waits, hholder, hp]) hwaits
    · rfl
  · rfl

theorem orphans_giveUp_waits (hwaits : t.waits p = true) :
    (t.giveUp p).orphans = t.orphans + 1 := by
  unfold waits at hwaits
  split at hwaits
  · rename_i p' n hholder
    rw [giveUp, hholder]
    simp only [of_decide_eq_true hwaits, if_true]
    rfl
  · cases hwaits

theorem wire_giveUp (p : P) (t : Turns P Q R) : (t.giveUp p).wire = t.wire := by
  unfold giveUp
  split
  · split <;> rfl
  · rfl

/-- What a read takes off the connection. -/
theorem read_eq_some {response : R} (hstep : t.read p = some (response, t')) :
    ∃ m n wire, t.holder = some (p, some m) ∧ t.wire.read = some ((n, response), wire) ∧
      t' = { t with holder := none, wire := wire } := by
  unfold Turns.read at hstep
  split at hstep
  · rename_i p' m hholder
    split at hstep
    · rename_i hp
      obtain ⟨⟨⟨n, response'⟩, wire⟩, hread, heq⟩ := Option.map_eq_some_iff.1 hstep
      cases heq
      exact ⟨m, n, wire, hp ▸ hholder, hread, rfl⟩
    · cases hstep
  · cases hstep

/-- A step of somebody else than `q`: `q` has the lock as before, and while it has the lock nobody
else uses the connection. -/
structure Others (q : P) (t t' : Turns P Q R) : Prop where
  holder : ∀ x, t'.holder = some (q, x) ↔ t.holder = some (q, x)
  wire : ∀ x, t.holder = some (q, x) → t'.wire = t.wire

omit [DecidableEq P] in
theorem Others.refl (q : P) (t : Turns P Q R) : Others q t t :=
  ⟨fun _ => Iff.rfl, fun _ _ => rfl⟩

section Others

variable {q : P}

omit [DecidableEq P] in
theorem others_acquire (hp : p ≠ q) (hstep : t.acquire p = some t') : Others q t t' := by
  unfold Turns.acquire at hstep
  split at hstep
  · rename_i hfree
    cases hstep
    refine ⟨fun x => ?_, fun _ _ => rfl⟩
    simp [hfree, hp]
  · cases hstep

theorem others_send {request : Q} (hp : p ≠ q) (hstep : t.send p request = some t') :
    Others q t t' := by
  unfold Turns.send at hstep
  split at hstep
  · rename_i hholder
    cases hstep
    refine ⟨fun x => ?_, fun x hx => ?_⟩
    · simp [hholder, hp]
    · simp [hholder, hp] at hx
  · cases hstep

theorem others_read {response : R} (hp : p ≠ q) (hstep : t.read p = some (response, t')) :
    Others q t t' := by
  obtain ⟨m, n, wire, hholder, -, rfl⟩ := read_eq_some hstep
  refine ⟨fun x => ?_, fun x hx => ?_⟩
  · simp [hholder, hp]
  · simp [hholder, hp] at hx

theorem others_giveUp (hp : p ≠ q) (t : Turns P Q R) : Others q t (t.giveUp p) := by
  refine ⟨fun x => ?_, fun _ _ => wire_giveUp p t⟩
  unfold giveUp
  split
  · rename_i p' number hholder
    split
    · rename_i heq
      simp [hholder, heq, hp]
    · rw [hholder]
  · rename_i hfree
    rw [hfree]

end Others

theorem Sound.send {request : Q} (h : t.Sound) (hstep : t.send p request = some t') : t'.Sound := by
  unfold Turns.send at hstep
  split at hstep
  · rename_i hholder
    cases hstep
    have hnone : t.awaited = none := by rw [awaited, hholder]; rfl
    refine ⟨h.inOrder.send request, ?_, ?_⟩
    · have hlength := h.length
      rw [hnone] at hlength
      rw [Wire.pending_send, List.length_append, hlength]
      rfl
    · rintro n ⟨⟩
      rw [Wire.pending_send]
      exact List.getLast?_concat
  · cases hstep

theorem unanswered_read {response : R} (hstep : t.read p = some (response, t')) :
    t'.wire.unanswered = t.wire.unanswered := by
  obtain ⟨m, n, wire, -, hread, rfl⟩ := read_eq_some hstep
  exact (Wire.read_eq_some hread).2

theorem orphans_read {response : R} (hstep : t.read p = some (response, t')) :
    t'.orphans = t.orphans := by
  obtain ⟨m, n, wire, -, -, rfl⟩ := read_eq_some hstep
  rfl

theorem Sound.read {response : R} (h : t.Sound) (hstep : t.read p = some (response, t')) :
    t'.Sound := by
  obtain ⟨m, n, wire, hholder, hread, rfl⟩ := read_eq_some hstep
  refine ⟨h.inOrder.read hread, ?_, fun _ hn => nomatch hn⟩
  have hlength := h.length
  rw [Wire.pending_read hread, awaited, hholder] at hlength
  exact Nat.succ.inj hlength

theorem Sound.giveUp (h : t.Sound) (p : P) : (t.giveUp p).Sound := by
  unfold Turns.giveUp
  split
  · rename_i p' number hholder
    split
    · refine ⟨h.inOrder, ?_, fun _ hn => nomatch hn⟩
      rw [h.length, awaited, hholder]
      rfl
    · exact h
  · exact h

/-- **Own responses**: a party that reads gets the response to its own request, exactly when nobody
has given up. -/
theorem Sound.answers_iff {response : R} (h : t.Sound) (hstep : t.read p = some (response, t')) :
    t.Answers p ↔ t.orphans = 0 := by
  obtain ⟨m, n, wire, hholder, hread, -⟩ := read_eq_some hstep
  have hawaited : t.awaited = some m := by rw [awaited, hholder]; rfl
  have hlength := h.length
  rw [hawaited] at hlength
  have hiff := h.inOrder.read_iff hread (h.last m hawaited)
  rw [hlength, Option.toList_some, List.length_singleton, Nat.add_eq_right] at hiff
  rw [← hiff]
  constructor
  · intro hown
    exact hown m n response wire hholder hread
  · intro heq m' n' response' wire' hholder' hread'
    cases hholder.symm.trans hholder'
    cases hread.symm.trans hread'
    exact heq

end Step

instance [DecidableEq P] (p : P) (t : Turns P Q R) : Decidable (t.Answers p) :=
  match hholder : t.holder, hread : t.wire.read with
  | some (p', some m), some ((n, response), wire) =>
    decidable_of_iff (p' = p → n = m) (by
      constructor
      · intro h m' n' response' wire' hholder' hread'
        cases hholder.symm.trans hholder'
        cases hread.symm.trans hread'
        exact h rfl
      · rintro h rfl
        exact h m n response wire hholder hread)
  | some (_, none), _ => isTrue fun _ _ _ _ h _ => by rw [hholder] at h; cases h
  | none, _ => isTrue fun _ _ _ _ h _ => by rw [hholder] at h; cases h
  | some (_, some _), none => isTrue fun _ _ _ _ _ h => by rw [hread] at h; cases h

end Turns
