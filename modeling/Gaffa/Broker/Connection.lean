import Gaffa.Lib.Transition
import Gaffa.Protocol.Codec

/-!
# Connections

`handle_connection` of `broker/src/server.rs`: requests are decoded from the bytes that arrive, each
is processed and answered before the next one is decoded.  The server is a parameter, as a function of
its state where the connection is alone and as any responses where it is not.

* `handleConnection_eq`: what a connection does depends on the bytes that it gets, whatever they are,
  and not on how they are cut into chunks.
* `connection_in_turn`: at both ends of a connection the requests and the responses are in the same
  order, each response belongs to its request, and nothing that has arrived is stuck.
-/

set_option autoImplicit false

namespace Gaffa

open ByteString Framing Transition

/-! ## Arbitrary bytes -/

section Frame

variable {α : Type}

/-- An outcome of the decoder other than to wait does not depend on the bytes behind. -/
theorem decodeFrame_append {B : Bincode α} {src rest : Bytes} {outcome : Except GaffaError (Option α)}
    (h : decodeFrame B src = (outcome, rest)) (hne : outcome ≠ .ok none) (more : Bytes) :
    decodeFrame B (src ++ more) = (outcome, rest ++ more) := by
  unfold decodeFrame at h ⊢
  by_cases hshort : src.length < 4
  · rw [if_pos hshort] at h
    cases h
    exact absurd rfl hne
  · have hfour : 4 ≤ src.length := Nat.le_of_not_lt hshort
    have htake : (src ++ more).take 4 = src.take 4 := List.take_append_of_le_length hfour
    have hdrop : (src ++ more).drop 4 = src.drop 4 ++ more := List.drop_append_of_le_length hfour
    rw [if_neg hshort] at h
    rw [if_neg (by rw [List.length_append]; omega)]
    simp only [htake, hdrop]
    simp only at h
    by_cases hlarge : maxMessageSize < ofBe (src.take 4)
    · rw [if_pos hlarge] at h ⊢
      cases h
      rfl
    · rw [if_neg hlarge] at h ⊢
      by_cases hcut : src.length < 4 + ofBe (src.take 4)
      · rw [if_pos hcut] at h
        cases h
        exact absurd rfl hne
      · have hbody : ofBe (src.take 4) ≤ (src.drop 4).length := by
          rw [List.length_drop]
          omega
        rw [if_neg hcut] at h
        rw [if_neg (by rw [List.length_append]; omega), List.take_append_of_le_length hbody,
          List.drop_append_of_le_length hbody]
        split at h
        · cases h
          rfl
        · cases h
          rfl

/-- An item that is decoded takes its length and its bytes. -/
theorem length_of_decodeFrame {B : Bincode α} {src rest : Bytes} {a : α}
    (h : decodeFrame B src = (.ok (some a), rest)) : rest.length < src.length := by
  unfold decodeFrame at h
  split at h
  · cases h
  · simp only at h
    split at h
    · cases h
    · split at h
      · cases h
      · split at h
        · cases h
        · cases h
          rw [List.length_drop, List.length_drop]
          omega

theorem decodeFrame_none {B : Bincode α} {src rest : Bytes}
    (h : decodeFrame B src = (.ok none, rest)) : rest = src := by
  unfold decodeFrame at h
  split at h
  · cases h
    rfl
  · simp only at h
    split at h
    · cases h
    · split at h
      · cases h
        rfl
      · split at h <;> cases h

/-- **The decoder** reads any bytes in the same way, however they arrive. -/
theorem steady_decodeFrame (B : Bincode α) : Steady (decodeFrame B) where
  empty := rfl
  item src a rest h := ⟨length_of_decodeFrame h, decodeFrame_append h (by simp)⟩
  error src e rest h more := ⟨rest ++ more, decodeFrame_append h (by simp) more⟩
  pause src rest h := decodeFrame_none h

end Frame

/-! ## One connection alone -/

/-- How `handle_connection` ends. -/
inductive Closed where
  | ok
  | error (e : GaffaError)
  | panicked
  deriving DecidableEq, Repr

/-- The error of a stream that ends inside a frame. -/
def unfinished : GaffaError := .io "bytes remaining on stream"

/-- `framed.next()`, with the bytes in the buffer and the chunks that still arrive. -/
def framedNext (R : Bincode Request) :
    Bytes → List Bytes → Except GaffaError (Option Request) × Bytes × List Bytes
  | buffer, [] =>
    match GaffaCodec.decode R buffer with
    | (.ok none, buffer) => (if buffer = [] then .ok none else .error unfinished, buffer, [])
    | (outcome, buffer) => (outcome, buffer, [])
  | buffer, chunk :: chunks =>
    match GaffaCodec.decode R buffer with
    | (.ok none, buffer) => framedNext R (buffer ++ chunk) chunks
    | (outcome, buffer) => (outcome, buffer, chunk :: chunks)

section Loop

variable {σ : Type} (R : Bincode Request) (S : Bincode Response)
  (process : Request → σ → Option Response × σ)

/-- The loop of `handle_connection`, at most `fuel` times: the bytes that it writes, the server, and
how it ends.  A request whose processing panics ends the task. -/
def connectionLoop : Nat → Bytes → List Bytes → σ → Bytes → Option (Bytes × σ × Closed)
  | 0, _, _, _, _ => none
  | fuel + 1, buffer, chunks, s, written =>
    match framedNext R buffer chunks with
    | (.error e, _, _) => some (written, s, .error e)
    | (.ok none, _, _) => some (written, s, .ok)
    | (.ok (some request), buffer, chunks) =>
      match process request s with
      | (none, s) => some (written, s, .panicked)
      | (some response, s) =>
        match GaffaCodec.encode S response written with
        | (.error e, written) => some (written, s, .error e)
        | (.ok (), written) => connectionLoop fuel buffer chunks s written

/-- `handle_connection`, of a client that sends these chunks and no more: a request takes a byte. -/
def handleConnection (chunks : List Bytes) (s : σ) : Option (Bytes × σ × Closed) :=
  connectionLoop R S process (chunks.flatten.length + 1) [] chunks s []

/-- The requests of a stream, processed and answered in order, and how that ends. -/
def answerAll (closed : Closed) : List Request → σ → Bytes → Bytes × σ × Closed
  | [], s, written => (written, s, closed)
  | request :: requests, s, written =>
    match process request s with
    | (none, s) => (written, s, .panicked)
    | (some response, s) =>
      match GaffaCodec.encode S response written with
      | (.error e, written) => (written, s, .error e)
      | (.ok (), written) => answerAll closed requests s written

end Loop

/-- How a connection ends when its requests are answered. -/
def closedBy : Ending GaffaError UInt8 → Closed
  | .failed e => .error e
  | .waits [] => .ok
  | .waits (_ :: _) => .error unfinished

section Loop

variable {σ : Type} {R : Bincode Request} {S : Bincode Response}
  {process : Request → σ → Option Response × σ}

/-- **The next request** is the first item of all bytes that are still to come. -/
theorem framedNext_cases (R : Bincode Request) (buffer : Bytes) (chunks : List Bytes) :
    (∃ e rest, framedNext R buffer chunks = (.error e, rest) ∧
      (whole (decodeFrame R) (buffer ++ chunks.flatten)).1 = [] ∧
      closedBy (whole (decodeFrame R) (buffer ++ chunks.flatten)).2 = .error e) ∨
    (∃ rest, framedNext R buffer chunks = (.ok none, rest) ∧
      (whole (decodeFrame R) (buffer ++ chunks.flatten)).1 = [] ∧
      closedBy (whole (decodeFrame R) (buffer ++ chunks.flatten)).2 = .ok) ∨
    (∃ request buffer' chunks', framedNext R buffer chunks =
        (.ok (some request), buffer', chunks') ∧
      (buffer' ++ chunks'.flatten).length < (buffer ++ chunks.flatten).length ∧
      whole (decodeFrame R) (buffer ++ chunks.flatten) =
        (request :: (whole (decodeFrame R) (buffer' ++ chunks'.flatten)).1,
          (whole (decodeFrame R) (buffer' ++ chunks'.flatten)).2)) := by
  have hsteady := steady_decodeFrame R
  induction chunks generalizing buffer with
  | nil =>
    rw [List.flatten_nil, List.append_nil, framedNext]
    split
    · rename_i rest hdecode
      rw [hsteady.whole_none hdecode, decodeFrame_none hdecode]
      cases buffer with
      | nil => exact Or.inr (Or.inl ⟨([], []), rfl, rfl, rfl⟩)
      | cons b bs => exact Or.inl ⟨unfinished, (b :: bs, []), rfl, rfl, rfl⟩
    · rename_i outcome rest hne hdecode
      cases outcome with
      | error e =>
        have hfails : decodeFrame R buffer = (.error e, rest) := hdecode
        rw [whole_error hfails]
        exact Or.inl ⟨e, (rest, []), rfl, rfl, rfl⟩
      | ok found =>
        cases found with
        | none => exact (hne rfl).elim
        | some request =>
          refine Or.inr (Or.inr ⟨request, rest, [], rfl, ?_, ?_⟩)
          · rw [List.flatten_nil, List.append_nil]
            exact length_of_decodeFrame hdecode
          · rw [List.flatten_nil, List.append_nil]
            exact hsteady.whole_item hdecode
  | cons chunk chunks ih =>
    rw [framedNext]
    split
    · rename_i rest hdecode
      rw [decodeFrame_none hdecode, List.flatten_cons, ← List.append_assoc]
      exact ih (buffer ++ chunk)
    · rename_i outcome rest hne hdecode
      cases outcome with
      | error e =>
        obtain ⟨rest', hmore⟩ := hsteady.error buffer e rest hdecode (chunk :: chunks).flatten
        rw [whole_error hmore]
        exact Or.inl ⟨e, (rest, chunk :: chunks), rfl, rfl, rfl⟩
      | ok found =>
        cases found with
        | none => exact (hne rfl).elim
        | some request =>
          obtain ⟨hlt, hmore⟩ := hsteady.item buffer request rest hdecode
          refine Or.inr (Or.inr ⟨request, rest, chunk :: chunks, rfl, ?_,
            hsteady.whole_item (hmore _)⟩)
          rw [List.length_append, List.length_append]
          omega

/-- The loop answers the requests of the bytes that are still to come. -/
theorem connectionLoop_eq (fuel : Nat) (buffer : Bytes) (chunks : List Bytes)
    (s : σ) (written : Bytes) (hfuel : (buffer ++ chunks.flatten).length < fuel) :
    connectionLoop R S process fuel buffer chunks s written =
      some (answerAll S process
        (closedBy (whole (decodeFrame R) (buffer ++ chunks.flatten)).2)
        (whole (decodeFrame R) (buffer ++ chunks.flatten)).1 s written) := by
  induction fuel generalizing buffer chunks s written with
  | zero => exact absurd hfuel (Nat.not_lt_zero _)
  | succ fuel ih =>
    rw [connectionLoop]
    rcases framedNext_cases R buffer chunks with
      ⟨e, rest, hnext, hnil, hclosed⟩ | ⟨rest, hnext, hnil, hclosed⟩ |
      ⟨request, buffer', chunks', hnext, hlt, hwhole⟩
    · rw [hnext, hnil, hclosed]
      rfl
    · rw [hnext, hnil, hclosed]
      rfl
    · rw [hnext, hwhole, answerAll]
      simp only
      cases process request s with
      | mk response s' =>
        cases response with
        | none => rfl
        | some response =>
          simp only
          cases GaffaCodec.encode S response written with
          | mk outcome written' =>
            cases outcome with
            | error e => rfl
            | ok u => exact ih buffer' chunks' s' written' (by omega)

/-- **A connection by itself** ends, and answers the requests at the front of the bytes that it gets,
in order and whatever the bytes are; how they are cut into chunks makes no difference. -/
theorem handleConnection_eq (R : Bincode Request) (S : Bincode Response)
    (process : Request → σ → Option Response × σ) (chunks : List Bytes) (s : σ) :
    handleConnection R S process chunks s = some (answerAll S process
      (closedBy (whole (decodeFrame R) chunks.flatten).2)
      (whole (decodeFrame R) chunks.flatten).1 s []) :=
  connectionLoop_eq _ [] chunks s [] (Nat.lt_succ_self _)

end Loop

/-! ## Both ends of a connection -/

/-- One direction: the bytes in the buffer of its reader, and those that have still to arrive. -/
structure Channel where
  buffer : Bytes
  flight : Bytes
  deriving DecidableEq, Repr

namespace Channel

/-- Bytes are written. -/
def write (bytes : Bytes) (c : Channel) : Channel := { c with flight := c.flight ++ bytes }

/-- The first `n` bytes arrive. -/
def arrive (n : Nat) (c : Channel) : Channel := ⟨c.buffer ++ c.flight.take n, c.flight.drop n⟩

/-- All but the first `n` bytes will not arrive. -/
def lose (n : Nat) (c : Channel) : Channel := { c with flight := c.flight.take n }

end Channel

/-- A connection with the request that the server processes. -/
structure Connection where
  requests : Channel
  responses : Channel
  serving : Option Request
  closed : Bool
  deriving DecidableEq, Repr

/-- What happens on a connection: the client sends a request or reads a response, the server takes a
request or responds, bytes arrive, the server ends the connection and bytes are lost. -/
inductive ConnectionEvent where
  | send (request : Request)
  | take (request : Request)
  | respond (response : Response)
  | read (response : Response)
  | arrive (requests responses : Nat)
  | close (requests responses : Nat)
  deriving DecidableEq, Repr

namespace Connection

/-- A connection that has just been accepted. -/
def new : Connection := ⟨⟨[], []⟩, ⟨[], []⟩, none, false⟩

/-- The client's `send`. -/
def send (R : Bincode Request) (request : Request) (c : Connection) : Option Connection :=
  match ClientCodec.encode R request [] with
  | (.ok (), bytes) => some { c with requests := c.requests.write bytes }
  | (.error _, _) => none

/-- `framed.next()` of `handle_connection`, when no request is being processed. -/
def take (R : Bincode Request) (request : Request) (c : Connection) : Option Connection :=
  if c.closed = false ∧ c.serving = none then
    match GaffaCodec.decode R c.requests.buffer with
    | (.ok (some decoded), buffer) =>
      if decoded = request then
        some { c with requests := { c.requests with buffer := buffer }, serving := some decoded }
      else none
    | _ => none
  else none

/-- `framed.send` of `handle_connection`, when a request is being processed. -/
def respond (S : Bincode Response) (response : Response) (c : Connection) : Option Connection :=
  if c.closed = false ∧ c.serving ≠ none then
    match GaffaCodec.encode S response [] with
    | (.ok (), bytes) =>
      some { c with responses := c.responses.write bytes, serving := none }
    | (.error _, _) => none
  else none

/-- The client's `next`. -/
def read (S : Bincode Response) (response : Response) (c : Connection) : Option Connection :=
  match ClientCodec.decode S c.responses.buffer with
  | (.ok (some decoded), buffer) =>
    if decoded = response then
      some { c with responses := { c.responses with buffer := buffer } }
    else none
  | _ => none

/-- The steps of a connection. -/
def next (R : Bincode Request) (S : Bincode Response) (c : Connection) :
    ConnectionEvent → Option Connection
  | .send request => c.send R request
  | .take request => c.take R request
  | .respond response => c.respond S response
  | .read response => c.read S response
  | .arrive m n =>
    some { c with requests := c.requests.arrive m, responses := c.responses.arrive n }
  | .close m n => some { c with
      requests := c.requests.lose m, responses := c.responses.lose n, closed := true }

end Connection

namespace ConnectionEvent

/-- The request that a client sends. -/
def sent : ConnectionEvent → Option Request
  | .send request => some request
  | _ => none

/-- The request that a server takes. -/
def taken : ConnectionEvent → Option Request
  | .take request => some request
  | _ => none

/-- The response that a server sends. -/
def responded : ConnectionEvent → Option Response
  | .respond response => some response
  | _ => none

/-- The response that a client reads. -/
def received : ConnectionEvent → Option Response
  | .read response => some response
  | _ => none

end ConnectionEvent

/-- **Requests and responses in turn**: the server has taken the first of the requests, answered all
of these or all but the last, and the client has read the first of the responses. -/
structure ConnectionInTurn (events : List ConnectionEvent) : Prop where
  requests : events.filterMap ConnectionEvent.taken <+: events.filterMap ConnectionEvent.sent
  responses : events.filterMap ConnectionEvent.received <+:
    events.filterMap ConnectionEvent.responded
  paired : (events.filterMap ConnectionEvent.responded).length ≤
      (events.filterMap ConnectionEvent.taken).length ∧
    (events.filterMap ConnectionEvent.taken).length ≤
      (events.filterMap ConnectionEvent.responded).length + 1

/-- **Nothing is stuck**: on an open connection on which all bytes have arrived, a server without a
request takes the next one that was sent, and a client reads the next response. -/
structure ConnectionLive (R : Bincode Request) (S : Bincode Response)
    (events : List ConnectionEvent) (c : Connection) : Prop where
  take : c.closed = false → c.serving = none → c.requests.flight = [] →
    ∀ request, (events.filterMap ConnectionEvent.sent)[
        (events.filterMap ConnectionEvent.taken).length]? = some request →
      (c.next R S (.take request)).isSome = true
  read : c.closed = false → c.responses.flight = [] →
    ∀ response, (events.filterMap ConnectionEvent.responded)[
        (events.filterMap ConnectionEvent.received).length]? = some response →
      (c.next R S (.read response)).isSome = true

/-- What a connection keeps: what was sent and not taken is on its way, in whole frames, and so is
what was answered and not read. -/
structure Conveys (R : Bincode Request) (S : Bincode Response) (events : List ConnectionEvent)
    (c : Connection) : Prop where
  requests : ∃ waiting, events.filterMap ConnectionEvent.sent =
      events.filterMap ConnectionEvent.taken ++ waiting ∧
    (c.closed = false → Carried (FrameOf R) waiting c.requests.buffer c.requests.flight [])
  responses : ∃ unread lost, events.filterMap ConnectionEvent.responded =
      events.filterMap ConnectionEvent.received ++ unread ∧
    Carried (FrameOf S) unread c.responses.buffer c.responses.flight lost ∧
    (c.closed = false → lost = [])
  serving : (events.filterMap ConnectionEvent.taken).length =
    (events.filterMap ConnectionEvent.responded).length + (if c.serving = none then 0 else 1)

section Steps

variable {R : Bincode Request} {S : Bincode Response} {events : List ConnectionEvent}
  {c c' : Connection}

theorem delivers_new (R : Bincode Request) (S : Bincode Response) :
    Conveys R S [] Connection.new where
  requests := ⟨[], rfl, fun _ => carried_nil⟩
  responses := ⟨[], [], rfl, carried_nil, fun _ => rfl⟩
  serving := rfl

/-- The frame that an encoder writes. -/
theorem frame_of_encode {α : Type} {B : Bincode α} {item : α} {bytes : Bytes}
    (h : encodeFrame B item [] = (.ok (), bytes)) : FrameOf B item bytes := by
  obtain ⟨frame, hframe, rfl⟩ := encodeFrame_ok h
  exact hframe

theorem Conveys.send (h : Conveys R S events c) {request : Request}
    (hstep : c.send R request = some c') : Conveys R S (events ++ [.send request]) c' := by
  unfold Connection.send at hstep
  split at hstep
  · rename_i bytes hencode
    cases hstep
    obtain ⟨waiting, hsent, hcarried⟩ := h.requests
    constructor
    · refine ⟨waiting ++ [request], ?_, fun hopen => ?_⟩
      · simp [List.filterMap_cons, ConnectionEvent.sent, ConnectionEvent.taken, hsent]
      · exact (hcarried hopen).write (frame_of_encode hencode)
    · simpa [List.filterMap_cons, ConnectionEvent.responded, ConnectionEvent.received] using h.responses
    · simpa [List.filterMap_cons, ConnectionEvent.responded, ConnectionEvent.taken] using h.serving
  · cases hstep

theorem Conveys.take (hR : R.Lawful) (h : Conveys R S events c) {request : Request}
    (hstep : c.take R request = some c') : Conveys R S (events ++ [.take request]) c' := by
  unfold Connection.take at hstep
  split at hstep
  · rename_i hidle
    obtain ⟨hopen, hserving⟩ := hidle
    split at hstep
    · rename_i decoded buffer hdecode
      split at hstep
      · rename_i heq
        subst heq
        cases hstep
        obtain ⟨waiting, hsent, hcarried⟩ := h.requests
        obtain ⟨rest, rfl, hrest⟩ := (hcarried hopen).take (frames_decodeFrame hR) hdecode
        constructor
        · refine ⟨rest, ?_, fun _ => hrest⟩
          simp [List.filterMap_cons, ConnectionEvent.sent, ConnectionEvent.taken, hsent]
        · simpa [List.filterMap_cons, ConnectionEvent.responded, ConnectionEvent.received] using h.responses
        · have hcount := h.serving
          rw [if_pos hserving] at hcount
          simpa [List.filterMap_cons, ConnectionEvent.responded, ConnectionEvent.taken] using hcount
      · cases hstep
    · cases hstep
  · cases hstep

theorem Conveys.respond (h : Conveys R S events c) {response : Response}
    (hstep : c.respond S response = some c') :
    Conveys R S (events ++ [.respond response]) c' := by
  unfold Connection.respond at hstep
  split at hstep
  · rename_i hbusy
    obtain ⟨hopen, hserving⟩ := hbusy
    split at hstep
    · rename_i bytes hencode
      cases hstep
      obtain ⟨unread, lost, hresponded, hcarried, hlost⟩ := h.responses
      obtain rfl := hlost hopen
      constructor
      · simpa [List.filterMap_cons, ConnectionEvent.sent, ConnectionEvent.taken] using h.requests
      · refine ⟨unread ++ [response], [], ?_, hcarried.write (frame_of_encode hencode),
          fun _ => rfl⟩
        simp [List.filterMap_cons, ConnectionEvent.responded, ConnectionEvent.received, hresponded]
      · have hcount := h.serving
        rw [if_neg hserving] at hcount
        simpa [List.filterMap_cons, ConnectionEvent.responded, ConnectionEvent.taken] using hcount
    · cases hstep
  · cases hstep

theorem Conveys.read (hS : S.Lawful) (h : Conveys R S events c) {response : Response}
    (hstep : c.read S response = some c') : Conveys R S (events ++ [.read response]) c' := by
  unfold Connection.read at hstep
  split at hstep
  · rename_i decoded buffer hdecode
    split at hstep
    · rename_i heq
      subst heq
      cases hstep
      obtain ⟨unread, lost, hresponded, hcarried, hlost⟩ := h.responses
      obtain ⟨rest, rfl, hrest⟩ := hcarried.take (frames_decodeFrame hS) hdecode
      constructor
      · simpa [List.filterMap_cons, ConnectionEvent.sent, ConnectionEvent.taken] using h.requests
      · refine ⟨rest, lost, ?_, hrest, hlost⟩
        simp [List.filterMap_cons, ConnectionEvent.responded, ConnectionEvent.received, hresponded]
      · simpa [List.filterMap_cons, ConnectionEvent.responded, ConnectionEvent.taken] using h.serving
    · cases hstep
  · cases hstep

theorem Conveys.arrive (h : Conveys R S events c) (m n : Nat) :
    Conveys R S (events ++ [.arrive m n])
      { c with requests := c.requests.arrive m, responses := c.responses.arrive n } := by
  obtain ⟨waiting, hsent, hcarried⟩ := h.requests
  obtain ⟨unread, lost, hresponded, hunread, hlost⟩ := h.responses
  constructor
  · refine ⟨waiting, ?_, fun hopen => (hcarried hopen).arrive m⟩
    simpa [List.filterMap_cons, ConnectionEvent.sent, ConnectionEvent.taken] using hsent
  · refine ⟨unread, lost, ?_, hunread.arrive n, hlost⟩
    simpa [List.filterMap_cons, ConnectionEvent.responded, ConnectionEvent.received] using hresponded
  · simpa [List.filterMap_cons, ConnectionEvent.responded, ConnectionEvent.taken] using h.serving

/-- What is lost on a connection that ends is at the end of the stream. -/
theorem Conveys.close (h : Conveys R S events c) (m n : Nat) :
    Conveys R S (events ++ [.close m n]) { c with
      requests := c.requests.lose m, responses := c.responses.lose n, closed := true } := by
  obtain ⟨waiting, hsent, -⟩ := h.requests
  obtain ⟨unread, lost, hresponded, hunread, -⟩ := h.responses
  constructor
  · refine ⟨waiting, ?_, nofun⟩
    simpa [List.filterMap_cons, ConnectionEvent.sent, ConnectionEvent.taken] using hsent
  · refine ⟨unread, c.responses.flight.drop n ++ lost, ?_, hunread.lose n, nofun⟩
    simpa [List.filterMap_cons, ConnectionEvent.responded, ConnectionEvent.received] using hresponded
  · simpa [List.filterMap_cons, ConnectionEvent.responded, ConnectionEvent.taken] using h.serving

/-- **One step** at either end. -/
theorem Conveys.next (hR : R.Lawful) (hS : S.Lawful) (h : Conveys R S events c)
    {e : ConnectionEvent} (hstep : c.next R S e = some c') : Conveys R S (events ++ [e]) c' := by
  cases e with
  | send request => exact h.send hstep
  | take request => exact h.take hR hstep
  | respond response => exact h.respond hstep
  | read response => exact h.read hS hstep
  | arrive m n =>
    cases hstep
    exact h.arrive m n
  | close m n =>
    cases hstep
    exact h.close m n

theorem Conveys.inTurn (h : Conveys R S events c) : ConnectionInTurn events := by
  obtain ⟨waiting, hsent, -⟩ := h.requests
  obtain ⟨unread, lost, hresponded, -, -⟩ := h.responses
  have hserving := h.serving
  refine ⟨⟨waiting, hsent.symm⟩, ⟨unread, hresponded.symm⟩, ?_⟩
  split at hserving <;> omega

theorem Conveys.live (hR : R.Lawful) (hS : S.Lawful) (h : Conveys R S events c) :
    ConnectionLive R S events c := by
  obtain ⟨waiting, hsent, hwaiting⟩ := h.requests
  obtain ⟨unread, lost, hresponded, hunread, hlost⟩ := h.responses
  constructor
  · intro hopen hidle hflight request hrequest
    rw [hsent, List.getElem?_append_right (Nat.le_refl _), Nat.sub_self] at hrequest
    rcases (hwaiting hopen).decode_cases (frames_decodeFrame hR) with
      ⟨first, rest, buffer, rfl, hdecode, -⟩ | ⟨-, hmore⟩
    · cases hrequest
      have htake : c.take R request = some { c with
          requests := { c.requests with buffer := buffer }, serving := some request } := by
        unfold Connection.take
        rw [if_pos ⟨hopen, hidle⟩, GaffaCodec.decode, hdecode]
        simp only [if_true]
      rw [Connection.next, htake]
      rfl
    · refine absurd ?_ (hmore ?_)
      · rw [hflight]
        rfl
      · rintro rfl
        cases hrequest
  · intro hopen hflight response hresponse
    obtain rfl := hlost hopen
    rw [hresponded, List.getElem?_append_right (Nat.le_refl _), Nat.sub_self] at hresponse
    rcases hunread.decode_cases (frames_decodeFrame hS) with
      ⟨first, rest, buffer, rfl, hdecode, -⟩ | ⟨-, hmore⟩
    · cases hresponse
      have hread : c.read S response = some { c with
          responses := { c.responses with buffer := buffer } } := by
        unfold Connection.read
        rw [ClientCodec.decode, hdecode]
        simp only [if_true]
      rw [Connection.next, hread]
      rfl
    · refine absurd ?_ (hmore ?_)
      · rw [hflight]
        rfl
      · rintro rfl
        cases hresponse

end Steps

/-- **A run of a connection**, whatever the server responds and however the bytes arrive: in its last
state, which may be any, requests and responses are in turn and nothing is stuck. -/
theorem connection_in_turn {R : Bincode Request} {S : Bincode Response} (hR : R.Lawful)
    (hS : S.Lawful) {tr : List (ConnectionEvent × Connection)}
    (hrun : Run (Steps (Connection.next R S)) Connection.new tr) :
    ConnectionInTurn (tr.map Prod.fst) ∧
      ConnectionLive R S (tr.map Prod.fst) (last Connection.new tr) := by
  have hdelivers : ∀ (before : List ConnectionEvent) (c : Connection), Conveys R S before c →
      Run (Steps (Connection.next R S)) c tr →
      Conveys R S (before ++ tr.map Prod.fst) (last c tr) := by
    clear hrun
    induction tr with
    | nil =>
      intro before c h _
      rw [List.map_nil, List.append_nil]
      exact h
    | cons step tr ih =>
      intro before c h hrun
      obtain ⟨e, c'⟩ := step
      have hrest := ih (before ++ [e]) c' (h.next hR hS hrun.1) hrun.2
      rw [List.append_assoc] at hrest
      exact hrest
  have hend := hdelivers [] Connection.new (delivers_new R S) hrun
  exact ⟨hend.inTurn, hend.live hR hS⟩

/-- A client that sends both requests at once, with the first one cut, and reads the first response
while the second request is processed. -/
def pipelined : List ConnectionEvent :=
  [.send .listTopics, .send .getClusterMetadata, .arrive 5 0, .arrive 11 0, .take .listTopics,
    .respond .heartbeatSuccess, .take .getClusterMetadata, .arrive 0 8, .read .heartbeatSuccess]

theorem connection_in_turn_pipelined : ConnectionInTurn pipelined := by
  obtain ⟨tr, htr⟩ : ∃ tr, trace (Connection.next plainRequests plainResponses) Connection.new
      pipelined = some tr := Option.isSome_iff_exists.1 (by decide)
  have hturn := (connection_in_turn plainRequests_lawful plainResponses_lawful
    (run_of_trace htr)).1
  rw [events_of_trace htr] at hturn
  exact hturn

end Gaffa
