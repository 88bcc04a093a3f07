import WireCommand.Client.WriteAll

/-!
# Receiving a response

A whole call of `wc_client_receive_response`, on whatever the server sends: any bytes, cut into
reads in any way, with interruptions, and then the end of the stream. The client's steps are those
of `Client.step`; a `Reception` adds what has been sent to the client and not been read.

The input buffer holds the front of the stream that has been read. As long as the parser asks for
more, a response has begun, and the rest of it fits into the buffer; so the client reads until the
parser has a whole response or the stream is over, and never gives up on what it has
(`ReceiveOk`). From there on it is in a call of `wc_socket_write_all`: the outcomes of `write` that
the client has seen (`Event.writes`) are those of a run of `writeAllCall` on the payload, the client
stands where that run ends, and it returns what that returns.
-/

namespace WireCommand.Client

open Foundation Foundation.Framing Protocol

/-! ## The call -/

/-- A client that receives, and the bytes from the server it has not read. -/
structure Reception where
  client : State
  unread : Bytes

/-- The client when it enters `wc_client_receive_response`. -/
def State.receiving (request : Buffer) (sent : Bytes) : State where
  pc := .parsing
  request := request
  input := .init inputLimit inputLimit_le_sizeMax
  sent := sent
  received := []
  stdout := []

/-- One step: `read` delivers the next bytes of the stream, or its end behind the last one, and the
allocator does not fail. -/
def Reception.step (r : Reception) : Event → Option Reception
  | .read (.data bytes) reallocOk =>
      if bytes <+: r.unread ∧ reallocOk = true then
        (Client.step r.client (.read (.data bytes) reallocOk)).map
          (⟨·, r.unread.drop bytes.length⟩)
      else
        none
  | .read .eof reallocOk =>
      if r.unread = [] then
        (Client.step r.client (.read .eof reallocOk)).map (⟨·, r.unread⟩)
      else
        none
  | .read (.failed _) _ => none
  | e => (Client.step r.client e).map (⟨·, r.unread⟩)

/-- `wc_client_receive_response` on a stream. -/
def receiveResponse (stream : Bytes) : StepSystem Reception Event :=
  .ofFn (fun r => ∃ request sent, r = ⟨.receiving request sent, stream⟩) Reception.step

/-- The call of `write` in a step of the client, if it makes one. -/
def Event.writes : Event → List WriteOutcome
  | .write outcome => [outcome]
  | _ => []

variable {stream : Bytes} {r r' : Reception} {e : Event} {s s' : State}
  {outcomes : List WriteOutcome}

/-! ## What a step does -/

/-- The steps of a reception. -/
inductive Received (r : Reception) : Event → Reception → Prop
  | complete {payload : Payload} {n : Nat} (hpc : r.client.pc = .parsing)
      (hverdict : responseVerdict r.client.input.data = .complete payload n) :
      Received r .parse ⟨{ r.client with pc := printFrom payload 0 }, r.unread⟩
  | incomplete (hpc : r.client.pc = .parsing)
      (hverdict : responseVerdict r.client.input.data = .needMore)
      (hroom : r.client.input.length ≠ r.client.input.maxSize) :
      Received r .parse ⟨{ r.client with pc := .reading }, r.unread⟩
  | full (hpc : r.client.pc = .parsing)
      (hverdict : responseVerdict r.client.input.data = .needMore)
      (hfull : r.client.input.length = r.client.input.maxSize) :
      Received r .parse ⟨r.client.finish (.error .eproto), r.unread⟩
  | read {bytes rest : Bytes} {input : Buffer} (hpc : r.client.pc = .reading)
      (hpos : 0 < bytes.length) (hunread : r.unread = bytes ++ rest)
      (hdata : input.data = r.client.input.data ++ bytes)
      (hmax : input.maxSize = r.client.input.maxSize) :
      Received r (.read (.data bytes) true)
        ⟨{ r.client with
            pc := .parsing, input := input, received := r.client.received ++ bytes }, rest⟩
  | eof {reallocOk : Bool} (hpc : r.client.pc = .reading) (hunread : r.unread = []) :
      Received r (.read .eof reallocOk) ⟨r.client.finish (.error .epipe), r.unread⟩
  | interrupted {reallocOk : Bool} (hpc : r.client.pc = .reading) :
      Received r (.read .interrupted reallocOk) ⟨{ r.client with pc := .parsing }, r.unread⟩
  | send {outcome : WriteOutcome} {total : Nat} {client : State}
      (hpc : r.client.pc = .sending total) : Received r (.write outcome) ⟨client, r.unread⟩
  | print {outcome : WriteOutcome} {data : Bytes} {total total' : Nat}
      (hpc : r.client.pc = .printing data total)
      (hwrite : writeAll data total outcome = some (.ok total')) :
      Received r (.write outcome)
        ⟨{ r.client with
            pc := printFrom data total'
            stdout := r.client.stdout ++ (data.drop total).take (total' - total) }, r.unread⟩
  | printFailed {outcome : WriteOutcome} {data : Bytes} {total : Nat} {e : Errno}
      (hpc : r.client.pc = .printing data total)
      (hwrite : writeAll data total outcome = some (.error e)) :
      Received r (.write outcome) ⟨r.client.finish (.error e), r.unread⟩

/-- What the parser leads to. -/
theorem received_parse (hpc : r.client.pc = .parsing) (h : Client.step r.client .parse = some s') :
    Received r .parse ⟨s', r.unread⟩ := by
  simp only [Client.step, hpc, parseResponse_span, parseResponse_eq, Option.map_some,
    Option.some.injEq] at h
  subst h
  cases hverdict : responseVerdict r.client.input.data with
  | invalid => exact absurd hverdict (responseVerdict_ne_invalid _)
  | complete payload n => exact .complete hpc hverdict
  | needMore =>
      by_cases hfull : r.client.input.length = r.client.input.maxSize
      · simp only [dispatch, hfull, or_true, if_true]
        exact .full hpc hverdict hfull
      · simp only [dispatch, hfull, or_false, reduceCtorEq, if_false]
        exact .incomplete hpc hverdict hfull

theorem Reception.step_received (h : r.step e = some r') : Received r e r' := by
  cases e with
  | write outcome =>
      obtain ⟨client, hstep, rfl⟩ := Option.map_eq_some_iff.mp h
      simp only [Client.step] at hstep
      split at hstep
      · next hpc => exact .send hpc
      · next data total hpc =>
          obtain ⟨result, hwrite, rfl⟩ := Option.map_eq_some_iff.mp hstep
          cases result with
          | ok total' => exact .print hpc hwrite
          | error e => exact .printFailed hpc hwrite
      · cases hstep
  | parse =>
      obtain ⟨client, hstep, rfl⟩ := Option.map_eq_some_iff.mp h
      have hpc : r.client.pc = .parsing := by
        simp only [Client.step] at hstep
        split at hstep
        · next hpc => exact hpc
        · cases hstep
      exact received_parse hpc hstep
  | read outcome reallocOk =>
      have hreading : ∀ {s' : State}, Client.step r.client (.read outcome reallocOk) = some s' →
          r.client.pc = .reading ∧ readResponse r.client outcome reallocOk = some s' := by
        intro s' hstep
        simp only [Client.step] at hstep
        split at hstep
        · next hpc => exact ⟨hpc, hstep⟩
        · cases hstep
      cases outcome with
      | failed e => cases h
      | interrupted =>
          obtain ⟨client, hstep, rfl⟩ := Option.map_eq_some_iff.mp h
          obtain ⟨hpc, hread⟩ := hreading hstep
          cases hread
          exact .interrupted hpc
      | eof =>
          simp only [step] at h
          split at h
          · next hunread =>
              obtain ⟨client, hstep, rfl⟩ := Option.map_eq_some_iff.mp h
              obtain ⟨hpc, hread⟩ := hreading hstep
              cases hread
              exact .eof hpc hunread
          · cases h
      | data bytes =>
          simp only [step] at h
          split at h
          · next hpossible =>
              obtain ⟨⟨rest, hunread⟩, rfl⟩ := hpossible
              obtain ⟨client, hstep, rfl⟩ := Option.map_eq_some_iff.mp h
              obtain ⟨hpc, hread⟩ := hreading hstep
              simp only [readResponse] at hread
              split at hread
              · next hbytes =>
                  -- what fits into the read fits into the buffer
                  obtain ⟨input, happend⟩ := Buffer.append_of_nextReadSize hbytes.2
                  obtain ⟨hdata, hmax, -⟩ := Buffer.append_ok happend
                  simp only [happend] at hread
                  cases hread
                  rw [← hunread, List.drop_left]
                  exact .read hpc hbytes.1 hunread.symm hdata hmax
              · cases hread
          · cases h

/-! ## The invariant -/

/-- The input buffer holds the front of the stream that has been read, and nothing has been
written. -/
structure Reads (stream : Bytes) (outcomes : List WriteOutcome) (r : Reception) : Prop where
  stream : stream = r.client.input.data ++ r.unread
  limit : r.client.input.maxSize = inputLimit
  unwritten : outcomes = []
  silent : r.client.stdout = []

/-- The stream starts with a response, whose payload is given to `wc_socket_write_all`; the outcomes
lead that call into this state, and standard output has what it has taken. -/
structure Prints (stream : Bytes) (outcomes : List WriteOutcome) (stdout : Bytes)
    (payload : Payload) (call : WriteCall) : Prop where
  stream : ∃ rest, stream = responseFrame payload ++ rest
  run : (writeAllCall (.bytes payload)).Run (.start (.bytes payload)) outcomes call
  accepted : call.accepted = stdout

/-- Where a reception is, behind calls of `write` with these outcomes. -/
def ReceiveOk (stream : Bytes) (outcomes : List WriteOutcome) (r : Reception) : Prop :=
  match r.client.pc with
  | .sending _ => False
  | .parsing => Reads stream outcomes r
  | .reading => Reads stream outcomes r ∧ responseVerdict r.client.input.data = .needMore
  | .printing data total => ∃ payload : Payload, data = payload ∧
      Prints stream outcomes r.client.stdout payload ⟨total, none, r.client.stdout⟩
  | .finished result =>
      (∃ payload call, Prints stream outcomes r.client.stdout payload call ∧
        call.result = some result) ∨
      (result = .error .epipe ∧ outcomes = [] ∧ r.client.stdout = [] ∧
        responseVerdict stream = .needMore)

/-- A response that has begun leaves room for the rest of it. -/
theorem length_lt_of_responseNeedMore {data : Bytes} (h : responseVerdict data = .needMore) :
    data.length < inputLimit := by
  rcases parseResponse_cases data with ⟨payload, rest, rfl⟩ | ⟨payload, missing, hne, hframe, -⟩
  · rw [responseVerdict_frame] at h
    cases h
  · have hlen := congrArg List.length hframe
    have hpos := List.length_pos_of_ne_nil hne
    have hle := payload.property
    rw [responseFrame_length, List.length_append] at hlen
    unfold inputLimit
    omega

/-- **The client never gives up on what it has read**: the parser does not reject it, and the buffer
is not full before the response is whole. -/
theorem Reads.not_full (h : Reads stream outcomes r)
    (hverdict : responseVerdict r.client.input.data = .needMore) :
    r.client.input.length < r.client.input.maxSize := by
  rw [h.limit]
  exact length_lt_of_responseNeedMore hverdict

theorem readable_bytes (data : Bytes) : Readable (.bytes data) := by
  intro hnull
  cases hnull

theorem payload_le_sizeMax (payload : Payload) : (Span.bytes payload.val).size ≤ sizeMax :=
  le_trans payload.property uint16Max_le_sizeMax

/-- A state of the call of `wc_socket_write_all` that the client is in. -/
theorem Prints.ok {stdout : Bytes} {payload : Payload} {call : WriteCall}
    (h : Prints stream outcomes stdout payload call) : call.Ok (.bytes payload) :=
  (writeAllCall_inductive (readable_bytes _) (payload_le_sizeMax payload)).run
    (WriteCall.ok_start (readable_bytes _)) h.run

/-- The client behind a test of the loop of `wc_socket_write_all`. -/
theorem receiveOk_of_prints {payload : Payload} {total : Nat} {client : State} {unread : Bytes}
    (hpc : client.pc = printFrom payload total)
    (h : Prints stream outcomes client.stdout payload
      ⟨total, writeTest payload.val.length total, client.stdout⟩) :
    ReceiveOk stream outcomes ⟨client, unread⟩ := by
  unfold ReceiveOk
  rw [hpc]
  unfold printFrom
  by_cases hlt : total < payload.val.length
  · have htest : writeTest payload.val.length total = none := if_pos hlt
    rw [htest] at h
    simp only [hlt, if_true]
    exact ⟨payload, rfl, h⟩
  · have htest : writeTest payload.val.length total = some (.ok ()) := if_neg hlt
    rw [htest] at h
    simp only [hlt, if_false]
    exact .inl ⟨payload, _, h, rfl⟩

/-- The client begins to print the payload of the response at the front of the stream. -/
theorem Reads.prints (h : Reads stream outcomes r) {payload : Payload} {n : Nat}
    (hverdict : responseVerdict r.client.input.data = .complete payload n) :
    Prints stream outcomes r.client.stdout payload
      ⟨0, writeTest payload.val.length 0, r.client.stdout⟩ := by
  obtain ⟨-, rest, hdata⟩ := responseVerdict_complete hverdict
  have hstart : WriteCall.start (.bytes payload) = ⟨0, writeTest payload.val.length 0, []⟩ := by
    simp [WriteCall.start, Span.isNull, Span.size]
  refine ⟨⟨rest ++ r.unread, ?_⟩, ?_, rfl⟩
  · rw [h.stream, hdata, List.append_assoc]
  · rw [h.unwritten, h.silent, hstart]
    exact .nil

/-- The client goes on printing. -/
theorem Prints.next {stdout : Bytes} {payload : Payload} {total total' : Nat}
    {outcome : WriteOutcome} (h : Prints stream outcomes stdout payload ⟨total, none, stdout⟩)
    (hwrite : writeAll payload total outcome = some (.ok total')) :
    Prints stream (outcomes ++ [outcome])
      (stdout ++ (payload.val.drop total).take (total' - total)) payload
      ⟨total', writeTest payload.val.length total',
        stdout ++ (payload.val.drop total).take (total' - total)⟩ := by
  have hstep : WriteCall.step (.bytes payload) ⟨total, none, stdout⟩ outcome =
      some ⟨total', writeTest payload.val.length total',
        stdout ++ (payload.val.drop total).take outcome.count⟩ := by
    simp [WriteCall.step, Span.data, Span.size, hwrite]
  -- what is counted is what was taken
  have hcount : outcome.count = total' - total := by
    rw [writeAll_count h.ok.total_le (payload_le_sizeMax payload) hwrite]
    exact (Nat.add_sub_cancel_left ..).symm
  rw [hcount] at hstep
  exact ⟨h.stream, h.run.snoc hstep, rfl⟩

/-- **Every step keeps the reception in order.** -/
theorem Received.ok (hreceived : Received r e r') (hok : ReceiveOk stream outcomes r) :
    ReceiveOk stream (outcomes ++ e.writes) r' := by
  unfold ReceiveOk at hok
  cases hreceived with
  | complete hpc hverdict =>
      rw [hpc] at hok
      show ReceiveOk stream (outcomes ++ []) _
      rw [List.append_nil]
      exact receiveOk_of_prints rfl (hok.prints hverdict)
  | incomplete hpc hverdict _ =>
      rw [hpc] at hok
      exact ⟨⟨hok.stream, hok.limit, by simp [hok.unwritten, Event.writes], hok.silent⟩, hverdict⟩
  | full hpc hverdict hfull =>
      rw [hpc] at hok
      exact absurd hfull (Nat.ne_of_lt (hok.not_full hverdict))
  | read hpc _ hunread hdata hmax =>
      rw [hpc] at hok
      obtain ⟨hstream, hlimit, hunwritten, hsilent⟩ := hok.1
      refine ⟨?_, hmax.trans hlimit, by simp [hunwritten, Event.writes], hsilent⟩
      rw [hstream, hunread, hdata, List.append_assoc]
  | eof hpc hunread =>
      rw [hpc] at hok
      obtain ⟨⟨hstream, -, hunwritten, hsilent⟩, hverdict⟩ := hok
      rw [hunread, List.append_nil] at hstream
      rw [← hstream] at hverdict
      exact .inr ⟨rfl, by simp [hunwritten, Event.writes], hsilent, hverdict⟩
  | interrupted hpc =>
      rw [hpc] at hok
      exact ⟨hok.1.stream, hok.1.limit, by simp [hok.1.unwritten, Event.writes], hok.1.silent⟩
  | send hpc =>
      rw [hpc] at hok
      exact hok.elim
  | print hpc hwrite =>
      rw [hpc] at hok
      obtain ⟨payload, rfl, hprints⟩ := hok
      exact receiveOk_of_prints rfl (hprints.next hwrite)
  | @printFailed outcome data total e hpc hwrite =>
      rw [hpc] at hok
      obtain ⟨payload, rfl, hprints⟩ := hok
      have hstep : WriteCall.step (.bytes payload) ⟨total, none, r.client.stdout⟩ outcome =
          some ⟨total, some (.error e), r.client.stdout⟩ := by
        simp [WriteCall.step, Span.data, hwrite]
      exact .inl ⟨payload, _, ⟨hprints.stream, hprints.run.snoc hstep, rfl⟩, rfl⟩

/-- **Every run of the call keeps it in order**, with the outcomes of its calls of `write`. -/
theorem receiveOk_of_run {request : Buffer} {sent : Bytes} {es : List Event}
    (hrun : (receiveResponse stream).Run ⟨.receiving request sent, stream⟩ es r) :
    ReceiveOk stream (es.flatMap Event.writes) r := by
  induction hrun with
  | nil => exact ⟨rfl, rfl, rfl, rfl⟩
  | snoc _ hstep ih =>
      rw [List.flatMap_append, List.flatMap_singleton]
      exact (Reception.step_received hstep).ok ih

theorem receiveOk_of_reachable (hr : (receiveResponse stream).Reachable r) :
    ∃ outcomes, ReceiveOk stream outcomes r := by
  obtain ⟨r₀, es, ⟨request, sent, rfl⟩, hrun⟩ := hr
  exact ⟨_, receiveOk_of_run hrun⟩

/-! ## The end of the call -/

/-- What is still to be done: to read the stream, and then to write a payload of any length. -/
def Reception.left (r : Reception) : Nat :=
  match r.client.pc with
  | .parsing => uint16Max + 2 * r.unread.length + 2
  | .reading => uint16Max + 2 * r.unread.length + 1
  | .printing data total => data.length - total
  | _ => 0

theorem left_printFrom {client : State} {unread data : Bytes} {total : Nat}
    (hpc : client.pc = printFrom data total) :
    (Reception.mk client unread).left = data.length - total := by
  unfold Reception.left
  rw [hpc]
  unfold printFrom
  by_cases hlt : total < data.length
  · simp only [hlt, if_true]
  · simp only [hlt, if_false]
    omega

/-- Every step comes closer to the end, unless a call was interrupted. -/
theorem Received.left_lt (hreceived : Received r e r') (hok : ReceiveOk stream outcomes r) :
    r'.left + 1 ≤ r.left + if e.idle then 2 else 0 := by
  unfold ReceiveOk at hok
  cases hreceived with
  | @complete payload n hpc _ =>
      have hle := payload.property
      rw [left_printFrom rfl]
      simp only [Reception.left, hpc, Event.idle]
      omega
  | incomplete hpc _ _ =>
      simp only [Reception.left, hpc, Event.idle]
      omega
  | full hpc _ _ =>
      simp only [Reception.left, hpc, State.finish, Event.idle]
      omega
  | read hpc hpos hunread _ _ =>
      simp only [Reception.left, hpc, hunread, List.length_append, Event.idle]
      omega
  | eof hpc _ =>
      simp only [Reception.left, hpc, State.finish, Event.idle]
      omega
  | interrupted hpc =>
      simp only [Reception.left, hpc, Event.idle, if_true]
      omega
  | send hpc =>
      rw [hpc] at hok
      exact hok.elim
  | @print outcome data total total' hpc hwrite =>
      rw [hpc] at hok
      obtain ⟨payload, rfl, hprints⟩ := hok
      have hlt : total < payload.val.length := hprints.ok.total_lt rfl
      obtain ⟨hle, hle', -, hinterrupted⟩ := writeAll_ok hlt (payload_le_sizeMax payload) hwrite
      rw [left_printFrom rfl]
      simp only [Reception.left, hpc]
      by_cases hmoved : total' = total
      · rw [hinterrupted hmoved]
        simp only [Event.idle, if_true]
        omega
      · omega
  | @printFailed outcome data total e hpc _ =>
      rw [hpc] at hok
      obtain ⟨payload, rfl, hprints⟩ := hok
      have hlt : total < payload.val.length := hprints.ok.total_lt rfl
      simp only [Reception.left, hpc, State.finish]
      omega

/-- The function has returned. -/
def Pc.returned : Pc → Bool
  | .finished _ => true
  | _ => false

/-- An environment in which every call of the client returns. -/
def Answers (stream : Bytes) (env : Nat → Reception → Event) : Prop :=
  ∀ n r, (receiveResponse stream).Reachable r → r.client.pc.returned = false →
    ∃ r', r.step (env n r) = some r'

/-- What has become of the payload behind calls of `write` with these outcomes: there has been no call,
or the payload has been given to `wc_socket_write_all`, which the outcomes lead to where the client
is; and the function returns what that returns. -/
def Forwards (payload : Payload) (outcomes : List WriteOutcome) (r : Reception) : Prop :=
  match r.client.pc with
  | .printing data total => data = payload ∧
      (writeAllCall (.bytes payload)).Run (.start (.bytes payload)) outcomes
        ⟨total, none, r.client.stdout⟩
  | .finished result => ∃ call,
      (writeAllCall (.bytes payload)).Run (.start (.bytes payload)) outcomes call ∧
        call.accepted = r.client.stdout ∧ call.result = some result
  | _ => outcomes = [] ∧ r.client.stdout = []

/-- A stream does not start with two responses. -/
theorem Prints.unique {stdout rest : Bytes} {payload payload' : Payload} {call : WriteCall}
    (h : Prints stream outcomes stdout payload call)
    (hstream : stream = responseFrame payload' ++ rest) : payload = payload' := by
  obtain ⟨rest', hstream'⟩ := h.stream
  exact (responseCodec.encode_prefix_free (hstream'.symm.trans hstream)).1

theorem ReceiveOk.forwards (hok : ReceiveOk stream outcomes r) {payload : Payload} {rest : Bytes}
    (hstream : stream = responseFrame payload ++ rest) : Forwards payload outcomes r := by
  unfold ReceiveOk at hok
  unfold Forwards
  cases hpc : r.client.pc with
  | sending total => rw [hpc] at hok; exact hok.elim
  | parsing => rw [hpc] at hok; exact ⟨hok.unwritten, hok.silent⟩
  | reading => rw [hpc] at hok; exact ⟨hok.1.unwritten, hok.1.silent⟩
  | printing data total =>
      rw [hpc] at hok
      obtain ⟨payload', rfl, hprints⟩ := hok
      obtain rfl := hprints.unique hstream
      exact ⟨rfl, hprints.run⟩
  | finished result =>
      rw [hpc] at hok
      rcases hok with ⟨payload', call, hprints, hresult⟩ | ⟨-, -, -, hverdict⟩
      · obtain rfl := hprints.unique hstream
        exact ⟨call, hprints.run, hprints.accepted, hresult⟩
      · rw [hstream, responseVerdict_frame] at hverdict
        cases hverdict

/-- A stream that ends before its first response does. -/
theorem ReceiveOk.silent (hok : ReceiveOk stream outcomes r)
    (hcut : ∀ (payload : Payload) (rest : Bytes), stream ≠ responseFrame payload ++ rest) :
    outcomes = [] ∧ r.client.stdout = [] ∧
      ∀ result, r.client.pc = .finished result → result = .error .epipe := by
  unfold ReceiveOk at hok
  have hnone : ∀ {payload : Payload} {call : WriteCall},
      ¬ Prints stream outcomes r.client.stdout payload call := by
    intro payload call hprints
    obtain ⟨rest, hstream⟩ := hprints.stream
    exact hcut payload rest hstream
  cases hpc : r.client.pc with
  | sending total => rw [hpc] at hok; exact hok.elim
  | parsing => rw [hpc] at hok; exact ⟨hok.unwritten, hok.silent, nofun⟩
  | reading => rw [hpc] at hok; exact ⟨hok.1.unwritten, hok.1.silent, nofun⟩
  | printing data total =>
      rw [hpc] at hok
      obtain ⟨payload, -, hprints⟩ := hok
      exact absurd hprints hnone
  | finished result =>
      rw [hpc] at hok
      rcases hok with ⟨payload, call, hprints, -⟩ | ⟨rfl, hunwritten, hsilent, -⟩
      · exact absurd hprints hnone
      · refine ⟨hunwritten, hsilent, ?_⟩
        rintro result ⟨⟩
        rfl

/-- The parser has a whole response, or asks for more while there is room for it. -/
theorem ReceiveOk.parses (hok : ReceiveOk stream outcomes r) (hpc : r.client.pc = .parsing) :
    ∃ parsed, parseResponse (span r.client.input) false false = some parsed ∧
      (parsed.result = .complete ∨
        ¬ (parsed.result = .invalid ∨ r.client.input.length = r.client.input.maxSize)) := by
  refine ⟨_, (parseResponse_span _).trans (parseResponse_eq _), ?_⟩
  unfold ReceiveOk at hok
  rw [hpc] at hok
  cases hverdict : responseVerdict r.client.input.data with
  | invalid => exact absurd hverdict (responseVerdict_ne_invalid _)
  | complete payload n => exact .inl rfl
  | needMore =>
      have hroom := Nat.ne_of_lt (hok.not_full hverdict)
      exact .inr (by simp [hroom])

/-- **A response is received however it is cut.** In every run of a call on a stream: if the stream
starts with a response, its payload and nothing else is given to `wc_socket_write_all`, the calls of
`write` in the run are the calls that makes, and what that returns is returned; if the stream ends
first, there is no call of `write`, and the function fails with `EPIPE`; and the branch for `EPROTO`
is not taken. The call ends, when the calls it makes do. -/
theorem receiveResponse_correct (stream : Bytes) (request : Buffer) (sent : Bytes) :
    (∀ es r, (receiveResponse stream).Run ⟨.receiving request sent, stream⟩ es r →
      (∀ (payload : Payload) (rest : Bytes), stream = responseFrame payload ++ rest →
        Forwards payload (es.flatMap Event.writes) r) ∧
      ((∀ (payload : Payload) (rest : Bytes), stream ≠ responseFrame payload ++ rest) →
        es.flatMap Event.writes = [] ∧ r.client.stdout = [] ∧
          ∀ result, r.client.pc = .finished result → result = .error .epipe) ∧
      (r.client.pc = .parsing → ∃ parsed,
        parseResponse (span r.client.input) false false = some parsed ∧
          (parsed.result = .complete ∨
            ¬ (parsed.result = .invalid ∨ r.client.input.length = r.client.input.maxSize)))) ∧
    ∀ env, Answers stream env → (∃ bound, ∀ n r, bound ≤ n → (env n r).idle = false) →
      ∃ n r result,
        StepSystem.play Reception.step env ⟨.receiving request sent, stream⟩ n = some r ∧
          r.client.pc = .finished result := by
  constructor
  · intro es r hrun
    have hok := receiveOk_of_run hrun
    exact ⟨fun payload rest hstream => hok.forwards hstream, hok.silent, hok.parses⟩
  · rintro env hanswers ⟨bound, hidle⟩
    have hmeasure : ∀ r e r', (receiveResponse stream).Reachable r → r.step e = some r' →
        r'.left + 1 ≤ r.left + if e.idle then 2 else 0 := by
      intro r e r' hr hstep
      obtain ⟨outcomes, hok⟩ := receiveOk_of_reachable hr
      exact (Reception.step_received hstep).left_lt hok
    obtain ⟨n, r, hplay, hreturned⟩ := (receiveResponse stream).reachable_inductive.returns
      (fun r => r.client.pc.returned) hmeasure hidle hanswers (.of_init ⟨request, sent, rfl⟩)
    cases hpc : r.client.pc with
    | finished result => exact ⟨n, r, result, hplay, hpc⟩
    | _ => simp [hpc, Pc.returned] at hreturned

/-- An environment that moves one byte at a time. -/
def bytewise (r : Reception) : Event :=
  match r.client.pc with
  | .parsing => .parse
  | .reading => if r.unread = [] then .read .eof true else .read (.data (r.unread.take 1)) true
  | _ => .write (.wrote 1)

theorem bytewise_idle (r : Reception) : (bytewise r).idle = false := by
  unfold bytewise
  split
  · rfl
  · split <;> rfl
  · rfl

/-- There is such an environment for every stream. -/
theorem bytewise_answers (stream : Bytes) : Answers stream fun _ => bytewise := by
  intro _ r hr hrunning
  obtain ⟨outcomes, hok⟩ := receiveOk_of_reachable hr
  unfold ReceiveOk at hok
  unfold bytewise
  cases hpc : r.client.pc with
  | sending total => rw [hpc] at hok; exact hok.elim
  | finished result => rw [hpc] at hrunning; cases hrunning
  | parsing =>
      simp only [Reception.step, Client.step, hpc, parseResponse_span, parseResponse_eq,
        Option.map_some]
      exact ⟨_, rfl⟩
  | reading =>
      rw [hpc] at hok
      cases hunread : r.unread with
      | nil =>
          simp only [Reception.step, Client.step, hpc, hunread, readResponse, if_true,
            Option.map_some]
          exact ⟨_, rfl⟩
      | cons b rest =>
          have hroom : [b].length ≤ r.client.input.nextReadSize readSize := by
            have hlt := hok.1.not_full hok.2
            unfold Buffer.length at hlt
            rw [Buffer.nextReadSize_eq, List.length_singleton, readSize]
            omega
          obtain ⟨input, happend⟩ := Buffer.append_of_nextReadSize hroom
          have hpossible : 0 < [b].length ∧ [b].length ≤ r.client.input.nextReadSize readSize :=
            ⟨Nat.one_pos, hroom⟩
          have hprefix : [b] <+: b :: rest := ⟨rest, rfl⟩
          simp only [reduceCtorEq, if_false, List.take_succ_cons, List.take_zero, Reception.step,
            hunread, hprefix, and_self, if_true, Client.step, hpc, readResponse, hpossible, happend,
            Option.map_some]
          exact ⟨_, rfl⟩
  | printing data total =>
      rw [hpc] at hok
      obtain ⟨payload, rfl, hprints⟩ := hok
      have hlt : total < payload.val.length := hprints.ok.total_lt rfl
      have hpossible : 0 < 1 ∧ 1 ≤ sizeSub payload.val.length total := by
        rw [sizeSub_eq (Nat.le_of_lt hlt)]
        omega
      simp only [Reception.step, Client.step, hpc, writeAll, hpossible, and_self, if_true,
        Option.map_some]
      exact ⟨_, rfl⟩

/-- A response of one byte in two reads with an interruption between them, and a byte behind it; the
first `write` is interrupted. -/
def twoReads : List Event :=
  [.parse, .read (.data [0]) true, .parse, .read .interrupted true, .parse,
    .read (.data [1, 65, 7]) true, .parse, .write .interrupted, .write (.wrote 1)]

/-- The byte is printed and the function returns 0; and so it does byte by byte. -/
theorem receiveResponse_correct_run :
    (∃ r, (receiveResponse [0, 1, 65, 7]).Run
        ⟨.receiving (.init 0 (Nat.zero_le _)) [], [0, 1, 65, 7]⟩ twoReads r ∧
      Forwards ⟨[65], by decide⟩ [.interrupted, .wrote 1] r ∧
      r.client.pc = .finished (.ok ()) ∧ r.client.stdout = [65]) ∧
    ∃ n r result, StepSystem.play Reception.step (fun _ => bytewise)
        ⟨.receiving (.init 0 (Nat.zero_le _)) [], [0, 1, 65, 7]⟩ n = some r ∧
      r.client.pc = .finished result := by
  have hcorrect := receiveResponse_correct [0, 1, 65, 7] (.init 0 (Nat.zero_le _)) []
  constructor
  · have heval : (StepSystem.exec Reception.step
        ⟨.receiving (.init 0 (Nat.zero_le _)) [], [0, 1, 65, 7]⟩ twoReads).any
        (fun r => decide (r.client.pc = .finished (.ok ()) ∧ r.client.stdout = [65])) = true := by
      decide +kernel
    rw [Option.any_eq_true] at heval
    obtain ⟨r, hexec, hprinted⟩ := heval
    have hrun : (receiveResponse [0, 1, 65, 7]).Run _ twoReads r := StepSystem.run_of_exec hexec
    refine ⟨r, hrun, ?_, of_decide_eq_true hprinted⟩
    exact (hcorrect.1 twoReads r hrun).1 ⟨[65], by decide⟩ [7] rfl
  · exact hcorrect.2 _ (bytewise_answers _) ⟨0, fun _ r _ => bytewise_idle r⟩

end WireCommand.Client
