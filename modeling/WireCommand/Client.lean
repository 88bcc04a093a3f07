import WireCommand.Foundation.Measure
import WireCommand.Response
import WireCommand.Socket

/-!
# The client

What `main` of the client does once it is connected: it writes the encoded request with
`wc_socket_write_all`, reads the response with `wc_client_receive_response`, and writes the payload
to standard output with `wc_socket_write_all` again. Nothing is assumed about how many bytes a call
moves.

The client stops reading as soon as it has a whole response, so it never consumes anything from its
input buffer. `Ok` says where it stands between the request it has to write and the response it
waits for, and `step_turn` that it stays there as long as no call fails and what arrives is a front of
a response: it parses a cut response as cut, has room for the rest, and prints the payload.
-/

namespace WireCommand.Client

open Foundation Foundation.Framing Protocol

/-! ## The model -/

/-- What `write` returns. -/
inductive WriteOutcome where
  | wrote (count : Nat)
  | zero
  | interrupted
  | failed (e : Errno)
  deriving DecidableEq

/-- What `read` returns on a blocking socket. -/
inductive ReadOutcome where
  | data (bytes : Bytes)
  | eof
  | interrupted
  | failed (e : Errno)
  deriving DecidableEq

/-- One iteration of `wc_socket_write_all`, with `total` bytes written before it: how many have been
written now, or the error it returns with; `none` when `write` cannot have this outcome. -/
def writeAll (data : Bytes) (total : Nat) : WriteOutcome → Option (Except Errno Nat)
  | .wrote count =>
      if 0 < count ∧ count ≤ sizeSub data.length total then
        some (.ok (sizeAdd total count))
      else
        none
  | .zero => some (.error .eio)
  | .interrupted => some (.ok total)
  | .failed e => some (.error e)

/-- The size of `bytes` in `wc_client_receive_response`. -/
def readSize : Nat := 4096

/-- `UINT16_MAX + WC_PROTOCOL_RESPONSE_HEADER_SIZE`. -/
def inputLimit : Nat := uint16Max + responseHeaderSize

theorem inputLimit_le_sizeMax : inputLimit ≤ sizeMax := by decide

/-- `input.data` and `input.length`: nothing is allocated before the first append. -/
def span (input : Buffer) : Span :=
  if input.capacity = 0 then .null input.length else .bytes input.data

/-- Where the client is. -/
inductive Pc where
  /-- `wc_socket_write_all` of the request. -/
  | sending (total : Nat)
  /-- At the head of the loop of `wc_client_receive_response`. -/
  | parsing
  | reading
  /-- `wc_socket_write_all` of the payload. -/
  | printing (data : Bytes) (total : Nat)
  | finished (result : Except Errno Unit)
  deriving DecidableEq

/-- A client that is connected; `sent` and `received` are ghosts. -/
structure State where
  pc : Pc
  request : Buffer
  input : Buffer
  sent : Bytes
  received : Bytes
  stdout : Bytes

/-- The loop test of `wc_socket_write_all` for the request. -/
def sendFrom (request : Buffer) (total : Nat) : Pc :=
  if total < request.length then .sending total else .parsing

/-- The loop test of `wc_socket_write_all` for the payload. -/
def printFrom (data : Bytes) (total : Nat) : Pc :=
  if total < data.length then .printing data total else .finished (.ok ())

/-- How `main` encodes the request. -/
def encodeRequest (type : RequestType) (argument : Bytes) (headerOk argumentOk : Bool) :
    Except Errno Unit × Buffer :=
  Protocol.encodeRequest (.init uint16Max uint16Max_le_sizeMax) type.code argument headerOk
    argumentOk

/-- The client when it begins to write its request. -/
def State.start (request : Buffer) : State where
  pc := sendFrom request 0
  request := request
  input := .init inputLimit inputLimit_le_sizeMax
  sent := []
  received := []
  stdout := []

/-- `wc_client_receive_response` returns. -/
def State.finish (s : State) (result : Except Errno Unit) : State :=
  { s with pc := .finished result, input := s.input.destroy }

/-- What the environment does. -/
inductive Event where
  | write (outcome : WriteOutcome)
  | parse
  | read (outcome : ReadOutcome) (reallocOk : Bool)

/-- What `wc_client_receive_response` does with what the parser says. -/
def dispatch (s : State) (parsed : ResponseParse) : State :=
  match parsed.result, parsed.response with
  | .complete, some response => { s with pc := printFrom response.data 0 }
  | _, _ =>
      if parsed.result = .invalid ∨ s.input.length = s.input.maxSize then s.finish (.error .eproto)
      else { s with pc := .reading }

/-- The read of `wc_client_receive_response`; `none` when `read` cannot have this outcome. -/
def readResponse (s : State) (outcome : ReadOutcome) (reallocOk : Bool) : Option State :=
  match outcome with
  | .data bytes =>
      if 0 < bytes.length ∧ bytes.length ≤ s.input.nextReadSize readSize then
        let s := { s with received := s.received ++ bytes }
        match s.input.append bytes reallocOk with
        | .error e => some (s.finish (.error e))
        | .ok input => some { s with pc := .parsing, input := input }
      else
        none
  | .eof => some (s.finish (.error .epipe))
  | .interrupted => some { s with pc := .parsing }
  | .failed e => some (s.finish (.error e))

/-- One step of the client. -/
def step (s : State) : Event → Option State
  | .write outcome =>
      match s.pc with
      | .sending total => (writeAll s.request.data total outcome).map fun
          | .error e => { s with pc := .finished (.error e) }
          | .ok total' => { s with
              pc := sendFrom s.request total'
              sent := s.sent ++ (s.request.data.drop total).take (total' - total) }
      | .printing data total => (writeAll data total outcome).map fun
          | .error e => s.finish (.error e)
          | .ok total' => { s with
              pc := printFrom data total'
              stdout := s.stdout ++ (data.drop total).take (total' - total) }
      | _ => none
  | .parse =>
      match s.pc with
      | .parsing => (parseResponse (span s.input) false false).map (dispatch s)
      | _ => none
  | .read outcome reallocOk =>
      match s.pc with
      | .reading => readResponse s outcome reallocOk
      | _ => none

/-! ## Writing everything -/

/-- An iteration that does not fail writes some more of the data. -/
theorem writeAll_ok {data : Bytes} {total total' : Nat} {outcome : WriteOutcome}
    (htotal : total < data.length) (hsize : data.length ≤ sizeMax)
    (h : writeAll data total outcome = some (.ok total')) :
    total ≤ total' ∧ total' ≤ data.length ∧
      data.take total ++ (data.drop total).take (total' - total) = data.take total' ∧
      (total' = total → outcome = .interrupted) := by
  have hjoin : ∀ n, data.take total ++ (data.drop total).take n = data.take (total + n) :=
    fun n => (List.take_add).symm
  cases outcome with
  | wrote count =>
      simp only [writeAll] at h
      split at h
      · next hcount =>
          rw [sizeSub_eq (Nat.le_of_lt htotal)] at hcount
          rw [sizeAdd_eq (by omega)] at h
          cases h
          refine ⟨by omega, by omega, ?_, by omega⟩
          rw [hjoin, Nat.add_sub_cancel_left]
      · cases h
  | zero => cases h
  | failed e => cases h
  | interrupted =>
      cases h
      exact ⟨Nat.le_refl _, Nat.le_of_lt htotal, by simp, fun _ => rfl⟩

/-! ## Parsing what has arrived -/

/-- The parser sees the same bytes whether they are allocated or not. -/
theorem parseResponse_span (input : Buffer) :
    parseResponse (span input) false false = parseResponse (.bytes input.data) false false := by
  unfold span
  split
  · next hcapacity =>
      have hle := input.length_le
      have hnil : input.data = [] := List.eq_nil_of_length_eq_zero (by omega)
      have hlength : input.length = 0 := by rw [Buffer.length, hnil, List.length_nil]
      rw [hnil, hlength]
      rfl
  · rfl

/-- **A cut response asks for more, and a whole one is complete.** -/
theorem parseResponse_front {input : Buffer} {payload : Payload} {missing : Bytes}
    (h : responseFrame payload = input.data ++ missing) :
    parseResponse (span input) false false = some (
      if missing = [] then
        ⟨.complete, some ⟨payload, payload.val.length, (responseFrame payload).length⟩,
          some (responseFrame payload).length⟩
      else ⟨.needMore, none, some 0⟩) := by
  rw [parseResponse_span]
  split
  · next hmissing =>
      have hframe := parseResponse_frame payload []
      rw [List.append_nil] at hframe
      rw [hmissing, List.append_nil] at h
      rw [← h]
      exact hframe
  · next hmissing =>
      have hverdict : responseVerdict input.data = .needMore :=
        responseCodec.parse_of_proper_prefix h hmissing
      rw [parseResponse_eq, hverdict]

/-! ## A client that is not disturbed -/

/-- No call fails, and there is memory. -/
def Event.smooth : Event → Bool
  | .write (.wrote _) => true
  | .write .interrupted => true
  | .parse => true
  | .read (.data _) reallocOk => reallocOk
  | .read .interrupted reallocOk => reallocOk
  | _ => false

/-- A call was interrupted and has to be made again. -/
def Event.idle : Event → Bool
  | .write .interrupted => true
  | .read .interrupted _ => true
  | _ => false

/-- The bytes the event brings. -/
def Event.arrived : Event → Bytes
  | .read (.data bytes) _ => bytes
  | _ => []

/-- The input buffer holds all that has arrived, and has room for a longest response. -/
def Collects (s : State) : Prop := s.input.data = s.received ∧ s.input.maxSize = inputLimit

/-- Where the client stands between this request and this response. -/
def PcOk (frame : Bytes) (payload : Payload) (s : State) : Pc → Prop
  | .sending total => total < frame.length ∧ s.sent = frame.take total ∧ s.stdout = [] ∧ Collects s
  | .parsing => s.sent = frame ∧ s.stdout = [] ∧ Collects s
  | .reading => s.sent = frame ∧ s.stdout = [] ∧ Collects s ∧ s.received ≠ responseFrame payload
  | .printing data total => s.sent = frame ∧ data = payload ∧ total < data.length ∧
      s.stdout = data.take total
  | .finished result => s.sent = frame ∧ result = .ok () ∧ s.stdout = payload

/-- The client has this request to write, and is on its way to this response. -/
structure Ok (frame : Bytes) (payload : Payload) (s : State) : Prop where
  request : s.request.data = frame
  pc : PcOk frame payload s s.pc

variable {frame : Bytes} {payload : Payload} {s s' : State} {e : Event}

theorem ok_start {request : Buffer} (hframe : request.data = frame) :
    Ok frame payload (.start request) := by
  refine ⟨hframe, ?_⟩
  show PcOk frame payload (.start request) (sendFrom request 0)
  unfold sendFrom Buffer.length
  rw [hframe]
  split
  · next hpos => exact ⟨hpos, rfl, rfl, rfl, rfl⟩
  · next hnil =>
      have hempty : frame = [] := List.eq_nil_of_length_eq_zero (by omega)
      exact ⟨hempty.symm, rfl, rfl, rfl⟩

/-- What has been sent is a front of the request, and what has been printed of the payload. -/
theorem Ok.fronts (h : Ok frame payload s) : s.sent <+: frame ∧ s.stdout <+: payload.val := by
  obtain ⟨-, hpc⟩ := h
  cases hs : s.pc with
  | sending total =>
      rw [hs] at hpc
      obtain ⟨-, hsent, hstdout, -⟩ := hpc
      rw [hsent, hstdout]
      exact ⟨List.take_prefix _ _, List.nil_prefix⟩
  | parsing =>
      rw [hs] at hpc
      obtain ⟨hsent, hstdout, -⟩ := hpc
      rw [hsent, hstdout]
      exact ⟨List.prefix_rfl, List.nil_prefix⟩
  | reading =>
      rw [hs] at hpc
      obtain ⟨hsent, hstdout, -⟩ := hpc
      rw [hsent, hstdout]
      exact ⟨List.prefix_rfl, List.nil_prefix⟩
  | printing data total =>
      rw [hs] at hpc
      obtain ⟨hsent, rfl, -, hstdout⟩ := hpc
      rw [hsent, hstdout]
      exact ⟨List.prefix_rfl, List.take_prefix _ _⟩
  | finished result =>
      rw [hs] at hpc
      obtain ⟨hsent, -, hstdout⟩ := hpc
      rw [hsent, hstdout]
      exact ⟨List.prefix_rfl, List.prefix_rfl⟩

/-! ## Progress -/

/-- What the client has moved. -/
def State.traffic (s : State) : Nat := s.sent.length + s.received.length + s.stdout.length

/-- How many steps the client is away from the next call that moves something. -/
def Pc.rank : Pc → Nat
  | .parsing => 2
  | .reading => 1
  | _ => 0

theorem sendFrom_rank (request : Buffer) (total : Nat) : (sendFrom request total).rank ≤ 2 := by
  unfold sendFrom
  split <;> simp [Pc.rank]

theorem printFrom_rank (data : Bytes) (total : Nat) : (printFrom data total).rank = 0 := by
  unfold printFrom
  split <;> rfl

/-! ## One step -/

/-- What a step does for a client that is not disturbed. -/
structure Turn (frame : Bytes) (payload : Payload) (s : State) (e : Event) (s' : State) : Prop where
  ok : Ok frame payload s'
  sent : s.sent <+: s'.sent
  received : s'.received = s.received ++ e.arrived
  pays : Pays 5 s.pc.rank s.traffic s'.pc.rank s'.traffic e.idle

/-- A write pays when it takes something, and otherwise it was interrupted. -/
theorem pays_write {total total' rank moved rank' moved' : Nat} {outcome : WriteOutcome}
    (hle : total ≤ total') (hinterrupted : total' = total → outcome = .interrupted)
    (hmoved : moved' + total = moved + total') (hrank : rank' < rank + 5) :
    Pays 5 rank moved rank' moved' (Event.write outcome).idle := by
  by_cases hsame : total' = total
  · rw [hinterrupted hsame]
    apply pays_of_still
    · omega
    · simp only [Event.idle, if_true]
      omega
  · apply pays_of_moved
    · omega
    · omega

theorem turn_send {total total' : Nat} {outcome : WriteOutcome} (hok : Ok frame payload s)
    (hpc : s.pc = .sending total)
    (hwrite : writeAll s.request.data total outcome = some (.ok total')) :
    Turn frame payload s (.write outcome) { s with
      pc := sendFrom s.request total'
      sent := s.sent ++ (s.request.data.drop total).take (total' - total) } := by
  obtain ⟨hrequest, hpcok⟩ := hok
  rw [hpc] at hpcok
  obtain ⟨htotal, hsent, hstdout, hcollects⟩ := hpcok
  have hsize : s.request.data.length ≤ sizeMax :=
    le_trans s.request.length_le_maxSize s.request.maxSize_le
  rw [hrequest] at hwrite hsize ⊢
  obtain ⟨hle, hle', htake, hinterrupted⟩ := writeAll_ok htotal hsize hwrite
  rw [hsent, htake]
  refine ⟨⟨hrequest, ?_⟩, ?_, by simp [Event.arrived], ?_⟩
  · show PcOk frame payload _ (sendFrom s.request total')
    unfold sendFrom Buffer.length
    rw [hrequest]
    split
    · next hlt => exact ⟨hlt, rfl, hstdout, hcollects⟩
    · next hdone => exact ⟨List.take_of_length_le (Nat.le_of_not_lt hdone), hstdout, hcollects⟩
  · rw [hsent]
    exact List.take_prefix_take_left hle
  · have hrank' := sendFrom_rank s.request total'
    have hlen : s.sent.length = total := by rw [hsent, List.length_take]; omega
    have hlen' : (frame.take total').length = total' := by rw [List.length_take]; omega
    apply pays_write hle hinterrupted
    · simp only [State.traffic, hlen, hlen']
      omega
    · exact lt_of_le_of_lt hrank' (by omega)

theorem turn_print {data : Bytes} {total total' : Nat} {outcome : WriteOutcome}
    (hok : Ok frame payload s) (hpc : s.pc = .printing data total)
    (hwrite : writeAll data total outcome = some (.ok total')) :
    Turn frame payload s (.write outcome) { s with
      pc := printFrom data total'
      stdout := s.stdout ++ (data.drop total).take (total' - total) } := by
  obtain ⟨hrequest, hpcok⟩ := hok
  rw [hpc] at hpcok
  obtain ⟨hsent, rfl, htotal, hstdout⟩ := hpcok
  have hsize : payload.val.length ≤ sizeMax := le_trans payload.property uint16Max_le_sizeMax
  obtain ⟨hle, hle', htake, hinterrupted⟩ := writeAll_ok htotal hsize hwrite
  rw [hstdout, htake]
  refine ⟨⟨hrequest, ?_⟩, List.prefix_rfl, by simp [Event.arrived], ?_⟩
  · show PcOk frame payload _ (printFrom payload.val total')
    unfold printFrom
    split
    · next hlt => exact ⟨hsent, rfl, hlt, rfl⟩
    · next hdone => exact ⟨hsent, rfl, List.take_of_length_le (Nat.le_of_not_lt hdone)⟩
  · have hrank' := printFrom_rank payload.val total'
    have hlen : s.stdout.length = total := by rw [hstdout, List.length_take]; omega
    have hlen' : (payload.val.take total').length = total' := by rw [List.length_take]; omega
    apply pays_write hle hinterrupted
    · simp only [State.traffic, hlen, hlen']
      omega
    · simp only [hrank']
      omega

/-- The parser takes the client to its next read, or to the payload. -/
theorem turn_parse {missing : Bytes} (hok : Ok frame payload s) (hpc : s.pc = .parsing)
    (hfront : responseFrame payload = s.received ++ missing) :
    ∃ s', step s .parse = some s' ∧ Turn frame payload s .parse s' := by
  obtain ⟨hrequest, hpcok⟩ := hok
  rw [hpc] at hpcok
  obtain ⟨hsent, hstdout, hinput, hmax⟩ := hpcok
  have hinputFront : responseFrame payload = s.input.data ++ missing := by rw [hinput, hfront]
  have hstep := congrArg (Option.map (dispatch s)) (parseResponse_front hinputFront)
  have hrank : s.pc.rank = 2 := by rw [hpc]; rfl
  simp only [step, hpc, hstep, Option.map_some]
  refine ⟨_, rfl, ?_⟩
  by_cases hmissing : missing = []
  · rw [if_pos hmissing]
    refine ⟨⟨hrequest, ?_⟩, List.prefix_rfl, by simp [dispatch, Event.arrived], ?_⟩
    · show PcOk frame payload _ (printFrom payload.val 0)
      unfold printFrom
      split
      · next hpos => exact ⟨hsent, rfl, hpos, by rw [List.take_zero]; exact hstdout⟩
      · next hnil =>
          have hempty : payload.val = [] := List.eq_nil_of_length_eq_zero (by omega)
          exact ⟨hsent, rfl, hstdout.trans hempty.symm⟩
    · apply pays_of_still
      · rfl
      · rw [hrank]
        show (printFrom payload.val 0).rank + 1 ≤ 2 + 0
        rw [printFrom_rank]
        omega
  · -- there is room left, since the response that has begun fits
    have hroom : s.input.length ≠ s.input.maxSize := by
      have hlen := congrArg List.length hinputFront
      have hpos := List.length_pos_of_ne_nil hmissing
      have hle := payload.property
      rw [responseFrame_length, List.length_append] at hlen
      rw [hmax, inputLimit, Buffer.length]
      omega
    have hdispatch : dispatch s ⟨.needMore, none, some 0⟩ = { s with pc := .reading } := by
      simp [dispatch, hroom]
    rw [if_neg hmissing, hdispatch]
    refine ⟨⟨hrequest, hsent, hstdout, ⟨hinput, hmax⟩, ?_⟩, List.prefix_rfl,
      by simp [Event.arrived], ?_⟩
    · intro hwhole
      rw [hwhole] at hfront
      exact hmissing (List.self_eq_append_right.mp hfront)
    · apply pays_of_still
      · rfl
      · rw [hrank]
        exact Nat.le_refl 2

/-- A read that is part of the response fits into the input buffer. -/
theorem turn_read {outcome : ReadOutcome} (hok : Ok frame payload s)
    (hpc : s.pc = .reading) (hsmooth : (Event.read outcome true).smooth = true)
    (h : readResponse s outcome true = some s') :
    Turn frame payload s (.read outcome true) s' := by
  obtain ⟨hrequest, hpcok⟩ := hok
  rw [hpc] at hpcok
  obtain ⟨hsent, hstdout, ⟨hinput, hmax⟩, -⟩ := hpcok
  have hrank : s.pc.rank = 1 := by rw [hpc]; rfl
  cases outcome with
  | data bytes =>
      simp only [readResponse] at h
      split at h
      · next hbytes =>
          obtain ⟨input, happend⟩ := Buffer.append_of_nextReadSize hbytes.2
          obtain ⟨hdata, hmax', -⟩ := Buffer.append_ok happend
          simp only [happend] at h
          cases h
          refine ⟨⟨hrequest, hsent, hstdout, ?_, hmax'.trans hmax⟩, List.prefix_rfl, rfl, ?_⟩
          · show input.data = s.received ++ bytes
            rw [hdata, hinput]
          · apply pays_of_moved
            · simp only [State.traffic, List.length_append]
              omega
            · rw [hrank]
              exact Nat.le_add_left 2 4
      · cases h
  | eof => cases hsmooth
  | failed e => cases hsmooth
  | interrupted =>
      cases h
      refine ⟨⟨hrequest, hsent, hstdout, hinput, hmax⟩, List.prefix_rfl, by simp [Event.arrived],
        ?_⟩
      apply pays_of_still
      · rfl
      · rw [hrank]
        exact Nat.le_add_left 3 3

/-- **A client that is not disturbed stays on its way.** -/
theorem step_turn {missing : Bytes} (hok : Ok frame payload s)
    (hfront : responseFrame payload = s.received ++ missing) (hsmooth : e.smooth = true)
    (h : step s e = some s') : Turn frame payload s e s' := by
  cases e with
  | write outcome =>
      have hgoes : ∀ {data : Bytes} {total : Nat} {result : Except Errno Nat},
          writeAll data total outcome = some result → ∃ total', result = .ok total' := by
        intro data total result hwrite
        cases outcome with
        | wrote count =>
            simp only [writeAll] at hwrite
            split at hwrite <;> cases hwrite
            exact ⟨_, rfl⟩
        | zero => cases hsmooth
        | failed e => cases hsmooth
        | interrupted => cases hwrite; exact ⟨_, rfl⟩
      simp only [step] at h
      split at h
      · next total hpc =>
          obtain ⟨result, hwrite, rfl⟩ := Option.map_eq_some_iff.mp h
          obtain ⟨total', rfl⟩ := hgoes hwrite
          exact turn_send hok hpc hwrite
      · next data total hpc =>
          obtain ⟨result, hwrite, rfl⟩ := Option.map_eq_some_iff.mp h
          obtain ⟨total', rfl⟩ := hgoes hwrite
          exact turn_print hok hpc hwrite
      · cases h
  | parse =>
      have hpc : s.pc = .parsing := by
        simp only [step] at h
        split at h
        · next hpc => exact hpc
        · cases h
      obtain ⟨s₁, hstep, hturn⟩ := turn_parse hok hpc hfront
      rw [hstep] at h
      cases h
      exact hturn
  | read outcome reallocOk =>
      have hrealloc : reallocOk = true := by
        cases outcome <;> first | exact hsmooth | cases hsmooth
      subst hrealloc
      simp only [step] at h
      split at h
      · next hpc => exact turn_read hok hpc hsmooth h
      · cases h

end WireCommand.Client
