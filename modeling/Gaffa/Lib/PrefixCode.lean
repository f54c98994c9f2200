import Mathlib.Data.List.Basic
import Mathlib.Data.List.Forall2
import Mathlib.Logic.ExistsUnique
import Mathlib.Tactic.TypeStar

/-!
# Codes that a decoder takes whole

A decoder takes one item off the front of a stream and leaves the rest.

* `Whole.decodes_flatten`: if the decoder takes the code of every item whole, whatever follows it,
  then it takes the items of a stream of codes one after the other, and each decode leaves exactly
  the codes behind its own.
* `drain`: any stream as the items that decode from its front and a rest that does not.
* `Precise.existsUnique_reading`: where the decoder takes the codes and nothing else, every stream is, in
  one way, codes one after the other and a tail that does not begin with one.
-/

set_option autoImplicit false

namespace PrefixCode

variable {ε α β : Type*}

/-- One call of a decoder: an item and the rest of the stream, or an error. -/
abbrev Decoder (ε α β : Type*) := List β → Except ε (α × List β)

/-- `n` calls of the decoder, each from where the one before it stopped: the items, and what is left
of the stream. -/
def decodes (decode : Decoder ε α β) : Nat → List β → Except ε (List α × List β)
  | 0, stream => .ok ([], stream)
  | n + 1, stream =>
    match decode stream with
    | .error e => .error e
    | .ok (a, rest) =>
      match decodes decode n rest with
      | .error e => .error e
      | .ok (items, rest) => .ok (a :: items, rest)

/-- The decoder takes every code whole. -/
def Whole (decode : Decoder ε α β) (Code : α → List β → Prop) : Prop :=
  ∀ a code, Code a code → ∀ rest, decode (code ++ rest) = .ok (a, rest)

variable {decode : Decoder ε α β} {Code : α → List β → Prop} {items : List α}
  {codes : List (List β)}

/-- **A stream of codes** is decoded to its items. -/
theorem Whole.decodes_flatten (h : Whole decode Code) (hcodes : List.Forall₂ Code items codes)
    (rest : List β) : decodes decode items.length (codes.flatten ++ rest) = .ok (items, rest) := by
  induction hcodes with
  | nil => rfl
  | @cons a code items codes hcode hcodes ih =>
    rw [List.length_cons, decodes, List.flatten_cons, List.append_assoc, h a code hcode]
    simp only [ih]

/-- Each decode consumes exactly the code of its item. -/
theorem Whole.decode_drop (h : Whole decode Code) (hcodes : List.Forall₂ Code items codes)
    (rest : List β) {i : Nat} {a : α} (hi : items[i]? = some a) :
    decode ((codes.drop i).flatten ++ rest) = .ok (a, (codes.drop (i + 1)).flatten ++ rest) := by
  induction hcodes generalizing i with
  | nil => cases hi
  | @cons b code items codes hcode hcodes ih =>
    cases i with
    | zero =>
      cases hi
      rw [List.drop_zero, List.drop_one, List.tail_cons, List.flatten_cons, List.append_assoc]
      exact h a code hcode _
    | succ i => exact ih hi

/-- Every code of the stream is the code of an item. -/
theorem exists_item (hcodes : List.Forall₂ Code items codes) {code : List β} (h : code ∈ codes) :
    ∃ a, Code a code := by
  induction hcodes with
  | nil => cases h
  | @cons a code' items codes hcode hcodes ih =>
    rcases List.mem_cons.1 h with rfl | h
    · exact ⟨a, hcode⟩
    · exact ih h

/-! ## Any stream, decoded until the decoder stops -/

/-- The decoder is called until it stops: the items, and the stream from where it stopped. -/
def drain (decode : Decoder ε α β) : Nat → List β → List α × List β
  | 0, stream => ([], stream)
  | n + 1, stream =>
    match decode stream with
    | .error _ => ([], stream)
    | .ok (a, rest) => (a :: (drain decode n rest).1, (drain decode n rest).2)

/-- The decoder takes something off the stream. -/
def Consumes (decode : Decoder ε α β) : Prop :=
  ∀ stream a rest, decode stream = .ok (a, rest) → rest.length < stream.length

theorem drain_error {n : Nat} {stream : List β} {e : ε} (h : decode stream = .error e) :
    drain decode (n + 1) stream = ([], stream) := by
  simp only [drain, h]

theorem drain_ok {n : Nat} {stream rest : List β} {a : α} (h : decode stream = .ok (a, rest)) :
    drain decode (n + 1) stream = (a :: (drain decode n rest).1, (drain decode n rest).2) := by
  simp only [drain, h]

/-- **The decoder stops with an error**, when it is called often enough. -/
theorem drain_stops (hcons : Consumes decode) : ∀ {n : Nat} {stream : List β},
    stream.length < n → ∃ e, decode (drain decode n stream).2 = .error e
  | 0, _, hn => absurd hn (Nat.not_lt_zero _)
  | n + 1, stream, hn => by
    cases hd : decode stream with
    | error e => exact ⟨e, by rw [drain_error hd]; exact hd⟩
    | ok out =>
      obtain ⟨a, rest⟩ := out
      have hlt := hcons stream a rest hd
      rw [drain_ok hd]
      exact drain_stops hcons (by omega)

theorem length_drain_le : ∀ (n : Nat) (stream : List β), (drain decode n stream).1.length ≤ n
  | 0, _ => Nat.le_refl _
  | n + 1, stream => by
    cases hd : decode stream with
    | error e => rw [drain_error hd]; exact Nat.zero_le _
    | ok out =>
      rw [drain_ok hd]
      exact Nat.succ_le_succ (length_drain_le n out.2)

/-- There are no more items than elements in the stream. -/
theorem Whole.length_le_flatten (h : Whole decode Code) (hcons : Consumes decode)
    (hcodes : List.Forall₂ Code items codes) : items.length ≤ codes.flatten.length := by
  induction hcodes with
  | nil => exact Nat.le_refl _
  | @cons a code items codes hcode hcodes ih =>
    have hlt := hcons (code ++ []) a [] (h a code hcode [])
    rw [List.flatten_cons, List.length_append, List.length_cons]
    simp only [List.append_nil, List.length_nil] at hlt
    omega

/-- A stream of codes before something that does not decode. -/
theorem Whole.drain_flatten (h : Whole decode Code) (hcodes : List.Forall₂ Code items codes)
    {tail : List β} {e : ε} (htail : decode tail = .error e) {n : Nat} (hn : items.length < n) :
    drain decode n (codes.flatten ++ tail) = (items, tail) := by
  induction hcodes generalizing n with
  | nil =>
    obtain ⟨n, rfl⟩ := Nat.exists_eq_succ_of_ne_zero (Nat.ne_of_gt hn)
    exact drain_error htail
  | @cons a code items codes hcode hcodes ih =>
    obtain ⟨n, rfl⟩ := Nat.exists_eq_succ_of_ne_zero (Nat.ne_of_gt (Nat.zero_lt_of_lt hn))
    rw [List.flatten_cons, List.append_assoc, drain_ok (h a code hcode _),
      ih (Nat.lt_of_succ_lt_succ hn)]

/-! ## What a decoder accepts -/

/-- The decoder takes the codes, and nothing else. -/
def Precise (decode : Decoder ε α β) (Code : α → List β → Prop) : Prop :=
  ∀ stream a rest, decode stream = .ok (a, rest) ↔ ∃ code, Code a code ∧ stream = code ++ rest

theorem Precise.whole (h : Precise decode Code) : Whole decode Code :=
  fun a code hcode rest => (h (code ++ rest) a rest).2 ⟨code, hcode, rfl⟩

/-- The decoder stops where no code begins. -/
theorem Precise.error_iff (h : Precise decode Code) (stream : List β) :
    (∃ e, decode stream = .error e) ↔ ∀ a code, Code a code → ¬ code <+: stream := by
  constructor
  · rintro ⟨e, he⟩ a code hcode ⟨rest, rfl⟩
    rw [h.whole a code hcode rest] at he
    cases he
  · intro hnone
    cases hd : decode stream with
    | error e => exact ⟨e, rfl⟩
    | ok out =>
      obtain ⟨a, rest⟩ := out
      obtain ⟨code, hcode, heq⟩ := (h stream a rest).1 hd
      exact absurd ⟨rest, heq.symm⟩ (hnone a code hcode)

/-- A reading of a stream: codes one after the other, and a tail that does not begin with one. -/
structure Reading (Code : α → List β → Prop) (stream : List β) (items : List α)
    (codes : List (List β)) (tail : List β) : Prop where
  spelled : List.Forall₂ Code items codes
  stream_eq : stream = codes.flatten ++ tail
  stops : ∀ a code, Code a code → ¬ code <+: tail

/-- The decoder finds the reading. -/
theorem Precise.drain_eq (h : Precise decode Code) {stream tail : List β}
    (hreading : Reading Code stream items codes tail) {n : Nat} (hn : items.length < n) :
    drain decode n stream = (items, tail) := by
  obtain ⟨e, he⟩ := (h.error_iff tail).2 hreading.stops
  rw [hreading.stream_eq]
  exact h.whole.drain_flatten hreading.spelled he hn

/-- What the decoder finds is a reading. -/
theorem Precise.exists_reading (h : Precise decode Code) (hcons : Consumes decode) :
    ∀ {n : Nat} {stream : List β}, stream.length < n →
      ∃ codes, Reading Code stream (drain decode n stream).1 codes (drain decode n stream).2
  | 0, _, hn => absurd hn (Nat.not_lt_zero _)
  | n + 1, stream, hn => by
    cases hd : decode stream with
    | error e =>
      rw [drain_error hd]
      exact ⟨[], .nil, rfl, (h.error_iff stream).1 ⟨e, hd⟩⟩
    | ok out =>
      obtain ⟨a, rest⟩ := out
      obtain ⟨code, hcode, rfl⟩ := (h stream a rest).1 hd
      have hlt := hcons _ a rest hd
      obtain ⟨codes, hreading⟩ := h.exists_reading hcons (show rest.length < n by omega)
      rw [drain_ok hd]
      refine ⟨code :: codes, .cons hcode hreading.spelled, ?_, hreading.stops⟩
      rw [List.flatten_cons, List.append_assoc, ← hreading.stream_eq]

/-- Codes of the same items in front of the same stream are the same. -/
theorem Precise.codes_inj (h : Precise decode Code) {codes' : List (List β)} {tail tail' : List β}
    (hcodes : List.Forall₂ Code items codes) (hcodes' : List.Forall₂ Code items codes')
    (hsame : codes.flatten ++ tail = codes'.flatten ++ tail') : codes = codes' ∧ tail = tail' := by
  induction hcodes generalizing codes' with
  | nil =>
    cases hcodes'
    exact ⟨rfl, hsame⟩
  | @cons a code items codes hcode hcodes ih =>
    obtain _ | ⟨hcode', hcodes'⟩ := hcodes'
    rename_i code' codes'
    rw [List.flatten_cons, List.flatten_cons, List.append_assoc, List.append_assoc] at hsame
    have hdecode := h.whole a code hcode (codes.flatten ++ tail)
    rw [hsame, h.whole a code' hcode' _] at hdecode
    have hrest : codes'.flatten ++ tail' = codes.flatten ++ tail := by
      injection hdecode with hdecode
      injection hdecode
    rw [hrest] at hsame
    obtain ⟨rfl, rfl⟩ := ih hcodes' hrest.symm
    exact ⟨by rw [List.append_cancel_right hsame], rfl⟩

/-- **Every stream has one reading.** -/
theorem Precise.existsUnique_reading (h : Precise decode Code) (hcons : Consumes decode)
    (stream : List β) : ∃! r : List α × List (List β) × List β,
      Reading Code stream r.1 r.2.1 r.2.2 := by
  obtain ⟨codes, hreading⟩ := h.exists_reading hcons (Nat.lt_succ_self stream.length)
  refine ⟨(_, codes, _), hreading, ?_⟩
  rintro ⟨items', codes', tail'⟩ (hreading' : Reading Code stream items' codes' tail')
  have hlength : items'.length < stream.length + 1 := by
    have hle := h.whole.length_le_flatten hcons hreading'.spelled
    rw [hreading'.stream_eq, List.length_append]
    omega
  have hdrain := h.drain_eq hreading' hlength
  rw [hdrain] at hreading
  obtain ⟨rfl, -⟩ := h.codes_inj hreading'.spelled hreading.spelled
    (hreading'.stream_eq.symm.trans hreading.stream_eq)
  rw [hdrain]
end PrefixCode
