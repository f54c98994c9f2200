import Mathlib.Data.List.Basic
import Mathlib.Data.List.Forall2
import Mathlib.Tactic.TypeStar

/-!
# Decoding a stream that arrives in chunks

A decoder takes one item off the front of a buffer, or none when the buffer holds no whole item
yet.  A reader appends each chunk to the buffer and decodes until there is none (`feed`).

* `Frames.feed_flatten`: if every item has a frame that the decoder takes whole and waits for
  otherwise, then however the stream of the frames is cut, the reader gets the items in order and
  is left with an empty buffer.
* `Steady.stream_eq`: if more bytes change nothing about an item or an error, then what is read of
  any stream, and how that ends, does not depend on how the stream is cut.
* `Carried.decode_cases`: of items on their way the decoder takes the first, or waits for the rest of
  it.
-/

set_option autoImplicit false

namespace Framing

variable {ε α β : Type*}

/-- One call of a decoder: an item, none, or an error, and the buffer that is left. -/
abbrev Decoder (ε α β : Type*) := List β → Except ε (Option α) × List β

/-- Items taken before an outcome. -/
def after (items : List α) : Except ε (List α) × List β → Except ε (List α) × List β
  | (.ok later, buffer) => (.ok (items ++ later), buffer)
  | (.error e, buffer) => (.error e, buffer)

/-- At most `fuel` calls of the decoder, until it has no item; nothing when they do not get there. -/
def drain (decode : Decoder ε α β) : Nat → List β → Option (Except ε (List α) × List β)
  | 0, _ => none
  | fuel + 1, buffer =>
    match decode buffer with
    | (.error e, buffer) => some (.error e, buffer)
    | (.ok none, buffer) => some (.ok [], buffer)
    | (.ok (some a), buffer) => (drain decode fuel buffer).map (after [a])

/-- The chunks of a stream, each appended to the buffer and decoded as far as possible. -/
def feed (decode : Decoder ε α β) : List β → List (List β) →
    Option (Except ε (List α) × List β)
  | buffer, [] => some (.ok [], buffer)
  | buffer, chunk :: chunks =>
    match drain decode (buffer.length + chunk.length + 1) (buffer ++ chunk) with
    | none => none
    | some (.error e, buffer) => some (.error e, buffer)
    | some (.ok items, buffer) => (feed decode buffer chunks).map (after items)

/-- What a decoder does with the frames of items: it takes a whole one, and waits for the rest of
one that is cut. -/
structure Frames (decode : Decoder ε α β) (Frame : α → List β → Prop) : Prop where
  nonempty : ∀ a frame, Frame a frame → frame ≠ []
  empty : decode [] = (.ok none, [])
  whole : ∀ a frame, Frame a frame → ∀ rest, decode (frame ++ rest) = (.ok (some a), rest)
  cut : ∀ a frame, Frame a frame → ∀ front back, frame = front ++ back → back ≠ [] →
    decode front = (.ok none, front)

variable {decode : Decoder ε α β} {Frame : α → List β → Prop}

/-- A buffer that is smaller than what is left of the stream: the front of the first frame. -/
def Waiting (buffer : List β) (frames : List (List β)) : Prop :=
  ∀ frame ∈ frames.head?, buffer.length < frame.length

/-- **Draining** a buffer takes the frames that are whole, and leaves the front of the next. -/
theorem Frames.drain_stream (h : Frames decode Frame) :
    ∀ {items : List α} {frames : List (List β)}, List.Forall₂ Frame items frames →
    ∀ {buffer rest : List β} {fuel : Nat}, buffer ++ rest = frames.flatten →
      buffer.length < fuel →
      ∃ (done todo : List α) (frames' : List (List β)) (buffer' : List β), items = done ++ todo ∧
        List.Forall₂ Frame todo frames' ∧
        drain decode fuel buffer = some (.ok done, buffer') ∧
        buffer' ++ rest = frames'.flatten ∧ Waiting buffer' frames' := by
  intro items frames hframes
  induction hframes with
  | nil =>
    intro buffer rest fuel hstream hfuel
    obtain ⟨rfl, rfl⟩ := List.append_eq_nil_iff.1 hstream
    obtain ⟨fuel, rfl⟩ := Nat.exists_eq_succ_of_ne_zero (Nat.ne_of_gt hfuel)
    refine ⟨[], [], [], [], rfl, List.Forall₂.nil, ?_, rfl, ?_⟩
    · simp only [drain, h.empty]
    · intro frame hframe
      cases hframe
  | @cons a frame items frames hframe hframes ih =>
    intro buffer rest fuel hstream hfuel
    obtain ⟨fuel, rfl⟩ := Nat.exists_eq_succ_of_ne_zero (Nat.ne_of_gt (Nat.zero_lt_of_lt hfuel))
    rw [List.flatten_cons] at hstream
    by_cases hlen : frame.length ≤ buffer.length
    · -- the buffer starts with the whole frame
      obtain ⟨buffer, rfl⟩ : ∃ later, buffer = frame ++ later := by
        have hinitial : frame <+: buffer :=
          List.prefix_of_prefix_length_le ⟨frames.flatten, hstream.symm⟩ ⟨rest, rfl⟩ hlen
        obtain ⟨later, hlater⟩ := hinitial
        exact ⟨later, hlater.symm⟩
      rw [List.append_assoc, List.append_cancel_left_eq] at hstream
      have hpos : 0 < frame.length := List.length_pos_iff.2 (h.nonempty a frame hframe)
      rw [List.length_append] at hfuel
      obtain ⟨done, todo, frames', buffer', rfl, htodo, hdrain, hrest, hwait⟩ :=
        ih hstream (show buffer.length < fuel by omega)
      refine ⟨a :: done, todo, frames', buffer', rfl, htodo, ?_, hrest, hwait⟩
      simp only [drain, h.whole a frame hframe buffer, hdrain]
      rfl
    · -- the buffer is a proper prefix of the frame
      obtain ⟨back, hback⟩ : ∃ back, buffer ++ back = frame :=
        List.prefix_of_prefix_length_le ⟨rest, rfl⟩ ⟨frames.flatten, hstream.symm⟩ (by omega)
      have hne : back ≠ [] := by
        rintro rfl
        rw [List.append_nil] at hback
        rw [hback] at hlen
        exact hlen (Nat.le_refl _)
      refine ⟨[], a :: items, frame :: frames, buffer, rfl, List.Forall₂.cons hframe hframes, ?_,
        hstream, ?_⟩
      · simp only [drain, h.cut a frame hframe buffer back hback.symm hne]
      · intro first hfirst
        cases hfirst
        omega

/-- **However a stream is cut**, the items are read in order and nothing is left. -/
theorem Frames.feed_stream (h : Frames decode Frame) :
    ∀ {chunks : List (List β)} {items : List α} {frames : List (List β)} {buffer : List β},
      List.Forall₂ Frame items frames → buffer ++ chunks.flatten = frames.flatten →
      Waiting buffer frames → feed decode buffer chunks = some (.ok items, []) := by
  intro chunks
  induction chunks with
  | nil =>
    intro items frames buffer hframes hstream hwait
    rw [List.flatten_nil, List.append_nil] at hstream
    cases hframes with
    | nil =>
      subst hstream
      rfl
    | @cons a frame items frames hframe hframes =>
      -- the front of a frame cannot be the whole stream
      have hlt : buffer.length < frame.length := hwait frame rfl
      have hlen := congrArg List.length hstream
      rw [List.flatten_cons, List.length_append] at hlen
      omega
  | cons chunk chunks ih =>
    intro items frames buffer hframes hstream _
    rw [List.flatten_cons, ← List.append_assoc] at hstream
    obtain ⟨done, todo, frames', buffer', rfl, htodo, hdrain, hrest, hwait⟩ :=
      h.drain_stream hframes hstream (Nat.lt_succ_self _)
    rw [List.length_append] at hdrain
    simp only [feed, hdrain, ih htodo hrest hwait]
    rfl

theorem Frames.feed_flatten (h : Frames decode Frame) {items : List α}
    {frames chunks : List (List β)} (hframes : List.Forall₂ Frame items frames)
    (hstream : chunks.flatten = frames.flatten) :
    feed decode [] chunks = some (.ok items, []) := by
  apply h.feed_stream hframes
  · exact hstream
  · intro frame hframe
    cases hframes with
    | nil => cases hframe
    | @cons a head items frames hhead hframes =>
      cases hframe
      exact List.length_pos_iff.2 (h.nonempty a frame hhead)

/-! ## Any stream -/

/-- How the reading of a buffer ends: by an error, or with bytes that are no whole item. -/
inductive Ending (ε β : Type*) where
  | failed (e : ε)
  | waits (buffer : List β)
  deriving DecidableEq, Repr

/-- The items at the front of a buffer, at most `fuel`, and how they end. -/
def items (decode : Decoder ε α β) : Nat → List β → List α × Ending ε β
  | 0, buffer => ([], .waits buffer)
  | fuel + 1, buffer =>
    match decode buffer with
    | (.error e, _) => ([], .failed e)
    | (.ok none, buffer) => ([], .waits buffer)
    | (.ok (some a), buffer) => (a :: (items decode fuel buffer).1, (items decode fuel buffer).2)

/-- All items at the front of a buffer. -/
def whole (decode : Decoder ε α β) (buffer : List β) : List α × Ending ε β :=
  items decode (buffer.length + 1) buffer

/-- The reading goes on with more bytes, unless it has failed. -/
def resume (decode : Decoder ε α β) : List α × Ending ε β → List β → List α × Ending ε β
  | (as, .failed e), _ => (as, .failed e)
  | (as, .waits buffer), more =>
    (as ++ (whole decode (buffer ++ more)).1, (whole decode (buffer ++ more)).2)

/-- The items of a stream that arrives in chunks. -/
def stream (decode : Decoder ε α β) (chunks : List (List β)) : List α × Ending ε β :=
  chunks.foldl (resume decode) ([], .waits [])

/-- More bytes change nothing about an item or an error, and an item takes bytes. -/
structure Steady (decode : Decoder ε α β) : Prop where
  empty : decode [] = (.ok none, [])
  item : ∀ buffer a rest, decode buffer = (.ok (some a), rest) →
    rest.length < buffer.length ∧ ∀ more, decode (buffer ++ more) = (.ok (some a), rest ++ more)
  error : ∀ buffer e rest, decode buffer = (.error e, rest) →
    ∀ more, ∃ rest', decode (buffer ++ more) = (.error e, rest')
  pause : ∀ buffer rest, decode buffer = (.ok none, rest) → rest = buffer

section Steady

variable {buffer rest : List β} {a : α} {e : ε}

theorem Steady.items_congr (h : Steady decode) {fuel fuel' : Nat} (hfuel : buffer.length < fuel)
    (hfuel' : buffer.length < fuel') : items decode fuel buffer = items decode fuel' buffer := by
  induction fuel generalizing fuel' buffer with
  | zero => exact absurd hfuel (Nat.not_lt_zero _)
  | succ fuel ih =>
    cases fuel' with
    | zero => exact absurd hfuel' (Nat.not_lt_zero _)
    | succ fuel' =>
      rw [items, items]
      split
      · rfl
      · rfl
      · rename_i a rest hdecode
        have hlt := (h.item buffer a rest hdecode).1
        have hsame : items decode fuel rest = items decode fuel' rest := ih (by omega) (by omega)
        rw [hsame]

theorem Steady.whole_item (h : Steady decode) (hdecode : decode buffer = (.ok (some a), rest)) :
    whole decode buffer = (a :: (whole decode rest).1, (whole decode rest).2) := by
  have hlt := (h.item buffer a rest hdecode).1
  rw [whole, items, hdecode]
  simp only
  rw [h.items_congr hlt (Nat.lt_succ_self _)]
  rfl

theorem whole_error (hdecode : decode buffer = (.error e, rest)) :
    whole decode buffer = ([], .failed e) := by
  rw [whole, items, hdecode]

theorem Steady.whole_none (h : Steady decode) (hdecode : decode buffer = (.ok none, rest)) :
    whole decode buffer = ([], .waits buffer) := by
  rw [whole, items, hdecode, h.pause buffer rest hdecode]

/-- **More bytes** are read as if they had been there from the start. -/
theorem Steady.whole_append (h : Steady decode) (buffer more : List β) :
    whole decode (buffer ++ more) = resume decode (whole decode buffer) more := by
  induction hlen : buffer.length using Nat.strongRecOn generalizing buffer with
  | ind n ih =>
    cases hdecode : decode buffer with
    | mk outcome rest =>
      cases outcome with
      | error e =>
        obtain ⟨rest', hmore⟩ := h.error buffer e rest hdecode more
        rw [whole_error hdecode, whole_error hmore, resume]
      | ok found =>
        cases found with
        | none =>
          rw [h.whole_none hdecode, resume, List.nil_append]
        | some a =>
          obtain ⟨hlt, hmore⟩ := h.item buffer a rest hdecode
          rw [h.whole_item hdecode, h.whole_item (hmore more), ih rest.length (hlen ▸ hlt) rest rfl]
          cases whole decode rest with
          | mk as ending => cases ending <;> rfl

/-- **However a stream is cut**, the same items are read and they end in the same way. -/
theorem Steady.stream_eq (h : Steady decode) (chunks : List (List β)) :
    stream decode chunks = whole decode chunks.flatten := by
  have hfold : ∀ buffer : List β, chunks.foldl (resume decode) (whole decode buffer) =
      whole decode (buffer ++ chunks.flatten) := by
    induction chunks with
    | nil =>
      intro buffer
      rw [List.flatten_nil, List.append_nil]
      rfl
    | cons chunk chunks ih =>
      intro buffer
      rw [List.foldl_cons, ← h.whole_append, ih, List.flatten_cons, List.append_assoc]
  have hnil : whole decode ([] : List β) = ([], .waits []) := h.whole_none h.empty
  have hall := hfold []
  rw [hnil, List.nil_append] at hall
  exact hall

end Steady

/-! ## Items on their way -/

/-- Items on their way to a reader: bytes that it has, bytes that will arrive, and bytes that are
lost. -/
def Carried (Frame : α → List β → Prop) (as : List α) (buffer flight lost : List β) : Prop :=
  ∃ frames, List.Forall₂ Frame as frames ∧ buffer ++ flight ++ lost = frames.flatten

section Carried

variable {as : List α} {a : α} {buffer flight lost rest frame : List β}

theorem carried_nil : Carried Frame [] [] [] [] := ⟨[], List.Forall₂.nil, rfl⟩

/-- One more item is written. -/
theorem Carried.write (h : Carried Frame as buffer flight []) (hframe : Frame a frame) :
    Carried Frame (as ++ [a]) buffer (flight ++ frame) [] := by
  obtain ⟨frames, hframes, hstream⟩ := h
  refine ⟨frames ++ [frame],
    List.rel_append hframes (List.Forall₂.cons hframe List.Forall₂.nil), ?_⟩
  rw [List.append_nil] at hstream ⊢
  rw [List.flatten_append, ← hstream, List.flatten_singleton, List.append_assoc]

/-- Bytes arrive. -/
theorem Carried.arrive (h : Carried Frame as buffer flight lost) (n : Nat) :
    Carried Frame as (buffer ++ flight.take n) (flight.drop n) lost := by
  obtain ⟨frames, hframes, hstream⟩ := h
  refine ⟨frames, hframes, ?_⟩
  rw [← hstream, List.append_assoc buffer, List.take_append_drop]

/-- Bytes are lost, and nothing arrives behind them. -/
theorem Carried.lose (h : Carried Frame as buffer flight lost) (n : Nat) :
    Carried Frame as buffer (flight.take n) (flight.drop n ++ lost) := by
  obtain ⟨frames, hframes, hstream⟩ := h
  refine ⟨frames, hframes, ?_⟩
  rw [← hstream, ← List.append_assoc, List.append_assoc buffer (flight.take n),
    List.take_append_drop]

/-- **What the decoder does** to bytes on their way: it takes the first item, or waits for it. -/
theorem Carried.decode_cases (hdecode : Frames decode Frame)
    (h : Carried Frame as buffer flight lost) :
    (∃ a as' rest, as = a :: as' ∧ decode buffer = (.ok (some a), rest) ∧
      Carried Frame as' rest flight lost) ∨
    (decode buffer = (.ok none, buffer) ∧ (as ≠ [] → flight ++ lost ≠ [])) := by
  obtain ⟨frames, hframes, hstream⟩ := h
  rw [List.append_assoc] at hstream
  cases hframes with
  | nil =>
    obtain ⟨rfl, -⟩ := List.append_eq_nil_iff.1 hstream
    exact Or.inr ⟨hdecode.empty, fun hne => absurd rfl hne⟩
  | @cons a frame as frames hframe hframes =>
    rw [List.flatten_cons] at hstream
    by_cases hlen : frame.length ≤ buffer.length
    · left
      obtain ⟨later, rfl⟩ : frame <+: buffer :=
        List.prefix_of_prefix_length_le ⟨frames.flatten, hstream.symm⟩ ⟨flight ++ lost, rfl⟩ hlen
      rw [List.append_assoc, List.append_cancel_left_eq] at hstream
      refine ⟨a, as, later, rfl, hdecode.whole a frame hframe later, frames, hframes, ?_⟩
      rw [List.append_assoc]
      exact hstream
    · right
      obtain ⟨back, hback⟩ : buffer <+: frame :=
        List.prefix_of_prefix_length_le ⟨flight ++ lost, rfl⟩ ⟨frames.flatten, hstream.symm⟩
          (Nat.le_of_not_le hlen)
      have hne : back ≠ [] := by
        rintro rfl
        rw [List.append_nil] at hback
        exact hlen (Nat.le_of_eq (congrArg List.length hback.symm))
      refine ⟨hdecode.cut a frame hframe buffer back hback.symm hne, fun _ hnil => ?_⟩
      rw [hnil, List.append_nil] at hstream
      have hlength := congrArg List.length hstream
      rw [List.length_append] at hlength
      omega

/-- An item that is taken was the first. -/
theorem Carried.take (hdecode : Frames decode Frame) (h : Carried Frame as buffer flight lost)
    (htake : decode buffer = (.ok (some a), rest)) :
    ∃ as', as = a :: as' ∧ Carried Frame as' rest flight lost := by
  rcases h.decode_cases hdecode with ⟨a', as', rest', rfl, hfirst, hcarried⟩ | ⟨hwait, -⟩
  · rw [htake] at hfirst
    cases hfirst
    exact ⟨as', rfl, hcarried⟩
  · rw [htake] at hwait
    cases hwait

end Carried

end Framing
