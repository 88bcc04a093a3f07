import WireCommand.Foundation.Ledger
import WireCommand.Foundation.StepSystem
import WireCommand.Response
import WireCommand.Socket

/-!
# A worker of a threaded server

The TCP server and the threaded UDS server give each connection to a worker thread, and the two
worker loops (`wc_tcp_worker_main`, `wc_threaded_uds_worker_main`) are the same code with functions
and constants of their own. Each of these functions is written here once, with what it is given as
parameters, and stands under its name in either server as the instance at that server's own; a
`Transport` is one of the two servers, and the loop calls the functions of its own.

A round of the loop tests whether the server is stopping, processes at most one request, and only if
the output buffer is empty, polls for input or for output but never for both, and reads or sends
once. So a worker that polls for input has answered everything it has read, which is what makes it
safe to leave at the end of the stream:

* `session_ledger` is the account of the connection in every state of the loop;
* `session_answers_everything` says what has been sent when the loop ends with the stream, or at
  the first malformed request.
-/

namespace WireCommand.Threaded

open Foundation Foundation.Framing Protocol

/-! ## The two servers -/

/-- The limits of a threaded server. -/
structure Config where
  readSize : Nat
  inputLimit : Nat
  outputLimit : Nat
  inputLimit_le : inputLimit ≤ sizeMax
  outputLimit_le : outputLimit ≤ sizeMax

/-- `WC_TCP_READ_SIZE`, `WC_TCP_INPUT_LIMIT` and `WC_TCP_OUTPUT_LIMIT`. -/
def tcp : Config where
  readSize := 4096
  inputLimit := uint16Max
  outputLimit := uint16Max + responseHeaderSize
  inputLimit_le := uint16Max_le_sizeMax
  outputLimit_le := Response.outputLimit_le_sizeMax

/-- `WC_THREADED_UDS_READ_SIZE`, `WC_THREADED_UDS_INPUT_LIMIT` and
`WC_THREADED_UDS_OUTPUT_LIMIT`. -/
def threadedUds : Config where
  readSize := 4096
  inputLimit := uint16Max
  outputLimit := uint16Max + responseHeaderSize
  inputLimit_le := uint16Max_le_sizeMax
  outputLimit_le := Response.outputLimit_le_sizeMax

/-- The two threaded servers. -/
inductive Transport where
  | tcp
  | threadedUds
  deriving DecidableEq, Repr

/-- The limits of each server. -/
def Transport.config : Transport → Config
  | .tcp => Threaded.tcp
  | .threadedUds => Threaded.threadedUds

/-! ## The worker -/

namespace Session

/-- Why a worker left its loop; the source does not keep this. -/
inductive Exit where
  | stopping
  /-- `wc_tcp_process_request` failed with this error. -/
  | request (e : Errno)
  | poll
  | endOfFile
  | read
  | send
  | pollError
  | hangup
  deriving DecidableEq

/-- Where a worker is in its loop. -/
inductive Pc where
  | loopTest
  | processing
  | polling (events : Events)
  | reading (revents : Revents)
  | writing (revents : Revents)
  | checking (revents : Revents)
  | left (exit : Exit)
  deriving DecidableEq

/-- A worker; `received` and `sent` are ghosts. -/
structure State where
  pc : Pc
  input : Buffer
  output : Buffer
  received : Bytes
  sent : Bytes

/-- The worker when it enters its loop. -/
def State.start (config : Config) : State where
  pc := .loopTest
  input := .init config.inputLimit config.inputLimit_le
  output := .init config.outputLimit config.outputLimit_le
  received := []
  sent := []

/-- The switch of `wc_tcp_run_command` and `wc_threaded_uds_run_command`. -/
def runCommand (host : Host) (request : Request) : CommandResult :=
  Response.runCommand host request.type request.argument

/-- The body of `wc_tcp_encode_response` and `wc_threaded_uds_encode_response`: the result, and the
output buffer they leave. -/
def encodeResponse (runCommand : Host → Request → CommandResult) (host : Host) (output : Buffer)
    (request : Request) (env : Response.Env) : Except Errno Unit × Buffer :=
  Response.encodeResult host output (runCommand host request) env

/-- The body of `wc_tcp_process_request` and `wc_threaded_uds_process_request`: the result, and the
two buffers they leave. -/
def processRequest
    (encodeResponse : Host → Buffer → Request → Response.Env → Except Errno Unit × Buffer)
    (host : Host) (input output : Buffer) (env : Response.Env) :
    Except Errno Unit × Buffer × Buffer :=
  match requestVerdict input.data with
  | .needMore => (.ok (), input, output)
  | .invalid => (.error .eproto, input, output)
  | .complete request consumed =>
      match encodeResponse host output request env with
      | (.error e, output) => (.error e, input, output)
      | (.ok (), output) =>
          match input.consume consumed with
          | .error e => (.error e, input, output)
          | .ok input => (.ok (), input, output)

/-- The body of `wc_tcp_read_client` and `wc_threaded_uds_read`: why the worker has to leave, if it
has to, and what they leave; `none` when `read` cannot have this outcome. -/
def readClient (config : Config) (s : State) (outcome : ReadOutcome) (reallocOk : Bool) :
    Option (Option Exit × State) :=
  if s.input.nextReadSize config.readSize = 0 then
    some (some .read, s)
  else
    match outcome with
    | .data bytes =>
        if 0 < bytes.length ∧ bytes.length ≤ s.input.nextReadSize config.readSize then
          let s := { s with received := s.received ++ bytes }
          match s.input.append bytes reallocOk with
          | .error _ => some (some .read, s)
          | .ok input => some (none, { s with input := input })
        else
          none
    | .eof => some (some .endOfFile, s)
    | .interrupted => some (none, s)
    | .wouldBlock => some (none, s)
    | .failed => some (some .read, s)

/-- The body of `wc_tcp_write_client` and `wc_threaded_uds_write`: why the worker has to leave, if it
has to, and what they leave; `none` when `send` cannot have this outcome. -/
def writeClient (s : State) (outcome : SendOutcome) : Option (Option Exit × State) :=
  match outcome with
  | .sent count =>
      if 0 < count ∧ count ≤ s.output.length then
        let sent := s.sent ++ s.output.data.take count
        match s.output.consume count with
        | .error _ => some (some .send, { s with sent := sent })
        | .ok output => some (none, { s with output := output, sent := sent })
      else
        none
  | .interrupted => some (none, s)
  | .wouldBlock => some (none, s)
  | .failed => some (some .send, s)

end Session

/-! ### The functions of each server -/

/-- `wc_tcp_run_command`. -/
def tcpRunCommand (host : Host) (request : Request) : CommandResult :=
  Session.runCommand host request

/-- `wc_threaded_uds_run_command`. -/
def threadedUdsRunCommand (host : Host) (request : Request) : CommandResult :=
  Session.runCommand host request

/-- `wc_tcp_encode_response`. -/
def tcpEncodeResponse (host : Host) (output : Buffer) (request : Request) (env : Response.Env) :
    Except Errno Unit × Buffer :=
  Session.encodeResponse tcpRunCommand host output request env

/-- `wc_threaded_uds_encode_response`. -/
def threadedUdsEncodeResponse (host : Host) (output : Buffer) (request : Request)
    (env : Response.Env) : Except Errno Unit × Buffer :=
  Session.encodeResponse threadedUdsRunCommand host output request env

/-- `wc_tcp_process_request`. -/
def tcpProcessRequest (host : Host) (input output : Buffer) (env : Response.Env) :
    Except Errno Unit × Buffer × Buffer :=
  Session.processRequest tcpEncodeResponse host input output env

/-- `wc_threaded_uds_process_request`. -/
def threadedUdsProcessRequest (host : Host) (input output : Buffer) (env : Response.Env) :
    Except Errno Unit × Buffer × Buffer :=
  Session.processRequest threadedUdsEncodeResponse host input output env

/-- `wc_tcp_read_client`. -/
def tcpReadClient (s : Session.State) (outcome : ReadOutcome) (reallocOk : Bool) :
    Option (Option Session.Exit × Session.State) :=
  Session.readClient tcp s outcome reallocOk

/-- `wc_threaded_uds_read`. -/
def threadedUdsRead (s : Session.State) (outcome : ReadOutcome) (reallocOk : Bool) :
    Option (Option Session.Exit × Session.State) :=
  Session.readClient threadedUds s outcome reallocOk

/-- `wc_tcp_write_client`. -/
def tcpWriteClient (s : Session.State) (outcome : SendOutcome) :
    Option (Option Session.Exit × Session.State) :=
  Session.writeClient s outcome

/-- `wc_threaded_uds_write`. -/
def threadedUdsWrite (s : Session.State) (outcome : SendOutcome) :
    Option (Option Session.Exit × Session.State) :=
  Session.writeClient s outcome

/-- The request step of each server. -/
def Transport.processRequest : Transport → Host → Buffer → Buffer → Response.Env →
    Except Errno Unit × Buffer × Buffer
  | .tcp => tcpProcessRequest
  | .threadedUds => threadedUdsProcessRequest

/-- The read of each server. -/
def Transport.readClient : Transport → Session.State → ReadOutcome → Bool →
    Option (Option Session.Exit × Session.State)
  | .tcp => tcpReadClient
  | .threadedUds => threadedUdsRead

/-- The write of each server. -/
def Transport.writeClient : Transport → Session.State → SendOutcome →
    Option (Option Session.Exit × Session.State)
  | .tcp => tcpWriteClient
  | .threadedUds => threadedUdsWrite

theorem Transport.processRequest_eq (transport : Transport) (host : Host) (input output : Buffer)
    (env : Response.Env) : transport.processRequest host input output env =
      Session.processRequest (Session.encodeResponse Session.runCommand) host input output env := by
  cases transport <;> rfl

theorem Transport.readClient_eq (transport : Transport) :
    transport.readClient = Session.readClient transport.config := by
  cases transport <;> rfl

theorem Transport.writeClient_eq (transport : Transport) :
    transport.writeClient = Session.writeClient := by
  cases transport <;> rfl

namespace Session

/-- `descriptor.events`. -/
def pollEvents (output : Buffer) : Events :=
  if output.length > 0 then ⟨false, true⟩ else ⟨true, false⟩

/-- What `poll` with a timeout returns. -/
inductive PollOutcome where
  | interrupted
  | failed
  | timeout
  | ready (revents : Revents)
  deriving DecidableEq

/-- What the environment does. -/
inductive Event where
  /-- `wc_tcp_is_stopping`, `wc_threaded_uds_is_stopping`. -/
  | stopTest (stopping : Bool)
  | process (env : Response.Env)
  | poll (outcome : PollOutcome)
  | read (outcome : ReadOutcome) (reallocOk : Bool)
  | send (outcome : SendOutcome)
  | tick

/-- Behind the read. -/
def afterRead (revents : Revents) : Pc := if revents.pollOut then .writing revents else .checking revents

/-- The end of a round. -/
def afterChecks (s : State) (revents : Revents) : Pc :=
  if revents.pollErr || revents.pollNval then .left .pollError
  else if revents.pollHup && s.output.length == 0 then .left .hangup
  else .loopTest

/-- Goes on, unless there is a reason to leave. -/
def continueWith (next : Pc) : Option Exit × State → State
  | (none, s) => { s with pc := next }
  | (some exit, s) => { s with pc := .left exit }

/-- The loop of `wc_tcp_worker_main` and `wc_threaded_uds_worker_main`, one step. -/
def step (transport : Transport) (host : Host) (s : State) : Event → Option State
  | .stopTest stopping =>
      match s.pc with
      | .loopTest => some { s with pc := if stopping then .left .stopping else .processing }
      | _ => none
  | .process env =>
      match s.pc with
      | .processing =>
          if s.output.length = 0 then
            match transport.processRequest host s.input s.output env with
            | (.error e, input, output) =>
                some { s with pc := .left (.request e), input := input, output := output }
            | (.ok (), input, output) =>
                some { s with pc := .polling (pollEvents output), input := input, output := output }
          else
            some { s with pc := .polling (pollEvents s.output) }
      | _ => none
  | .poll outcome =>
      match s.pc with
      | .polling events =>
          match outcome with
          | .interrupted => some { s with pc := .loopTest }
          | .failed => some { s with pc := .left .poll }
          | .timeout => some { s with pc := .loopTest }
          | .ready revents =>
              if revents.answers events then
                some { s with
                  pc := if revents.pollIn then .reading revents else afterRead revents }
              else
                none
      | _ => none
  | .read outcome reallocOk =>
      match s.pc with
      | .reading revents =>
          (transport.readClient s outcome reallocOk).map (continueWith (afterRead revents))
      | _ => none
  | .send outcome =>
      match s.pc with
      | .writing revents => (transport.writeClient s outcome).map (continueWith (.checking revents))
      | _ => none
  | .tick =>
      match s.pc with
      | .checking revents => some { s with pc := afterChecks s revents }
      | _ => none

end Session

/-- The loop of a worker of a server. -/
def workerMain (transport : Transport) (host : Host) : StepSystem Session.State Session.Event :=
  .ofFn (fun s => s = .start transport.config) (Session.step transport host)

/-- `wc_tcp_worker_main`. -/
def tcpWorkerMain (host : Host) : StepSystem Session.State Session.Event := workerMain .tcp host

/-- `wc_threaded_uds_worker_main`. -/
def threadedUdsWorkerMain (host : Host) : StepSystem Session.State Session.Event :=
  workerMain .threadedUds host

/-- The worker of each server. -/
def Transport.worker : Transport → Host → StepSystem Session.State Session.Event
  | .tcp => tcpWorkerMain
  | .threadedUds => threadedUdsWorkerMain

/-- Each worker is the instance of the loop. -/
theorem worker_eq (transport : Transport) (host : Host) :
    transport.worker host = workerMain transport host := by
  cases transport <;> rfl

namespace Session

variable {transport : Transport} {host : Host} {s s' : State} {e : Event}

/-! ## The moves of a worker -/

/-- What a step can do, one constructor for each way through the loop's body. -/
inductive Move (transport : Transport) (host : Host) (s : State) : Event → State → Prop
  | stopTest {stopping : Bool} (hpc : s.pc = .loopTest) :
      Move transport host s (.stopTest stopping)
        { s with pc := if stopping then .left .stopping else .processing }
  | refused {env : Response.Env} {errno : Errno} {input output : Buffer}
      (hpc : s.pc = .processing) (hempty : s.output.data = [])
      (h : transport.processRequest host s.input s.output env = (.error errno, input, output)) :
      Move transport host s (.process env)
        { s with pc := .left (.request errno), input := input, output := output }
  | processed {env : Response.Env} {input output : Buffer}
      (hpc : s.pc = .processing) (hempty : s.output.data = [])
      (h : transport.processRequest host s.input s.output env = (.ok (), input, output)) :
      Move transport host s (.process env)
        { s with pc := .polling (pollEvents output), input := input, output := output }
  | undrained {env : Response.Env} (hpc : s.pc = .processing) (hlen : s.output.length ≠ 0) :
      Move transport host s (.process env) { s with pc := .polling (pollEvents s.output) }
  | pollAgain {events : Events} {outcome : PollOutcome} (hpc : s.pc = .polling events)
      (h : outcome = .interrupted ∨ outcome = .timeout) :
      Move transport host s (.poll outcome) { s with pc := .loopTest }
  | pollFailed {events : Events} (hpc : s.pc = .polling events) :
      Move transport host s (.poll .failed) { s with pc := .left .poll }
  | ready {events : Events} {revents : Revents} (hpc : s.pc = .polling events)
      (h : revents.answers events = true) :
      Move transport host s (.poll (.ready revents))
        { s with pc := if revents.pollIn then .reading revents else afterRead revents }
  | read {revents : Revents} {outcome : ReadOutcome} {reallocOk : Bool}
      {result : Option Exit × State} (hpc : s.pc = .reading revents)
      (h : readClient transport.config s outcome reallocOk = some result) :
      Move transport host s (.read outcome reallocOk) (continueWith (afterRead revents) result)
  | send {revents : Revents} {outcome : SendOutcome} {result : Option Exit × State}
      (hpc : s.pc = .writing revents) (h : writeClient s outcome = some result) :
      Move transport host s (.send outcome) (continueWith (.checking revents) result)
  | checked {revents : Revents} (hpc : s.pc = .checking revents) :
      Move transport host s .tick { s with pc := afterChecks s revents }

/-- Every step is one of the moves. -/
theorem step_move (h : step transport host s e = some s') : Move transport host s e s' := by
  cases e with
  | stopTest stopping =>
      simp only [step] at h
      split at h
      · next hpc => cases h; exact .stopTest hpc
      · cases h
  | process env =>
      simp only [step] at h
      split at h
      · next hpc =>
          split at h
          · next hlen =>
              have hempty : s.output.data = [] := List.eq_nil_of_length_eq_zero hlen
              split at h
              · next hprocess => cases h; exact .refused hpc hempty hprocess
              · next hprocess => cases h; exact .processed hpc hempty hprocess
          · next hlen => cases h; exact .undrained hpc hlen
      · cases h
  | poll outcome =>
      simp only [step] at h
      split at h
      · next events hpc =>
          cases outcome with
          | interrupted => cases h; exact .pollAgain hpc (.inl rfl)
          | failed => cases h; exact .pollFailed hpc
          | timeout => cases h; exact .pollAgain hpc (.inr rfl)
          | ready revents =>
              simp only at h
              split at h
              · next hanswers => cases h; exact .ready hpc hanswers
              · cases h
      · cases h
  | read outcome reallocOk =>
      simp only [step] at h
      split at h
      · next revents hpc =>
          obtain ⟨result, hread, rfl⟩ := Option.map_eq_some_iff.mp h
          rw [transport.readClient_eq] at hread
          exact .read hpc hread
      · cases h
  | send outcome =>
      simp only [step] at h
      split at h
      · next revents hpc =>
          obtain ⟨result, hsend, rfl⟩ := Option.map_eq_some_iff.mp h
          rw [transport.writeClient_eq] at hsend
          exact .send hpc hsend
      · cases h
  | tick =>
      simp only [step] at h
      split at h
      · next revents hpc => cases h; exact .checked hpc
      · cases h

/-! ## The invariant -/

/-- The accounts of the connection: everything that was parsed has been answered. -/
def Balanced (host : Host) (s : State) : Prop :=
  ∃ answered, Ledger requestCodec (respond host) s.received s.sent answered [] s.input.data
    s.output.data

/-- Nothing is left to do for the worker before more input arrives. -/
def Idle (s : State) : Prop := s.output.data = [] ∧ requestVerdict s.input.data = .needMore

/-- The states in which the accounts are balanced. A worker that leaves for want of memory, or after
an error of a socket, may leave in the middle of something. -/
def Pc.Accounted : Pc → Prop
  | .left .endOfFile => True
  | .left (.request .eproto) => True
  | .left _ => False
  | _ => True

/-- What the program counter promises about the buffers. -/
def PcOk (s : State) : Pc → Prop
  | .polling events => events.pollIn = true → Idle s
  | .reading _ => Idle s
  | .left .endOfFile => Idle s
  | .left (.request .eproto) => s.output.data = [] ∧ requestVerdict s.input.data = .invalid
  | _ => True

/-- The invariant of a worker. -/
structure State.Valid (host : Host) (s : State) : Prop where
  balanced : s.pc.Accounted → Balanced host s
  pc : PcOk s s.pc

/-- A pc that promises nothing. -/
theorem State.Valid.moveTo (hs : Balanced host s) {pc : Pc} (hpc : PcOk { s with pc := pc } pc) :
    ({ s with pc := pc } : State).Valid host := ⟨fun _ => hs, hpc⟩

/-- A worker that asks for input has none left to process. -/
theorem pollEvents_pollIn {output : Buffer} (h : (pollEvents output).pollIn = true) :
    output.data = [] := by
  unfold pollEvents at h
  split at h
  · cases h
  · next hlen => exact List.eq_nil_of_length_eq_zero (Nat.eq_zero_of_not_pos hlen)

/-- What `wc_tcp_process_request` does with an empty output buffer. -/
theorem processRequest_spec {input output : Buffer} {env : Response.Env}
    {result : Except Errno Unit} (hs : Balanced host s) (hempty : s.output.data = [])
    (h : transport.processRequest host s.input s.output env = (result, input, output)) :
    match result with
    | .ok () => Balanced host { s with input := input, output := output } ∧
        (output.data = [] → requestVerdict input.data = .needMore)
    | .error errno => errno = .eproto →
        input = s.input ∧ output = s.output ∧ requestVerdict s.input.data = .invalid := by
  rw [transport.processRequest_eq, processRequest] at h
  split at h
  · next hparse => cases h; exact ⟨hs, fun _ => hparse⟩
  · next hparse => cases h; exact fun _ => ⟨rfl, rfl, hparse⟩
  · next request consumed hparse =>
      split at h
      · next errno output₁ hencode =>
          cases h
          rintro rfl
          rcases Response.encodeCommandResponse_error hencode with h | h | h <;> cases h
      · next output₁ hencode =>
          obtain ⟨rfl, rest, hdata⟩ := requestVerdict_complete hparse
          obtain ⟨hresponse, -⟩ := Response.encodeCommandResponse_ok hencode
          obtain ⟨input₁, hconsume⟩ := Buffer.consume_of_le s.input
            request.frame.length (by rw [hdata, List.length_append]; omega)
          obtain ⟨hdrop, -, -⟩ := Buffer.consume_ok hconsume
          have hrespond : output₁.data = respond host request := by rw [hresponse, hempty]; rfl
          have hrest : input₁.data = rest := by rw [hdrop, hdata, List.drop_left]
          rw [hconsume] at h
          cases h
          refine ⟨?_, fun hnil => absurd hnil (hrespond ▸ respond_ne_nil host request)⟩
          obtain ⟨answered, hledger⟩ := hs
          -- the frame becomes a pending request and is answered at once
          rw [hdata, hempty] at hledger
          have hparsed : Ledger requestCodec (respond host) s.received s.sent answered [request]
              rest [] := Ledger.parse (by rw [requestCodec.encodeAll_singleton]; exact hledger)
          refine ⟨answered ++ [request], ?_⟩
          simp only [hrest, hrespond]
          exact hparsed.answer

theorem readClient_spec {outcome : ReadOutcome} {reallocOk : Bool} {exit : Option Exit}
    (hs : Balanced host s) (h : readClient transport.config s outcome reallocOk = some (exit, s')) :
    (exit = none → Balanced host s') ∧ (exit = some .endOfFile → s' = s) ∧
      ∀ errno, exit ≠ some (.request errno) := by
  unfold readClient at h
  split at h
  · cases h; simp
  · cases outcome with
    | eof => cases h; simp
    | interrupted => cases h; simpa using hs
    | wouldBlock => cases h; simpa using hs
    | failed => cases h; simp
    | data bytes =>
        simp only at h
        split at h
        · split at h
          · cases h; simp
          · next input happend =>
              cases h
              obtain ⟨hdata, -, -⟩ := Buffer.append_ok happend
              obtain ⟨answered, hledger⟩ := hs
              refine ⟨fun _ => ⟨answered, ?_⟩, by simp, by simp⟩
              simpa [hdata] using hledger.receive bytes
        · cases h

theorem writeClient_spec {outcome : SendOutcome} {exit : Option Exit}
    (hs : Balanced host s) (h : writeClient s outcome = some (exit, s')) :
    (exit = none → Balanced host s') ∧ (exit = none ∨ exit = some .send) := by
  cases outcome with
  | interrupted => cases h; simpa using hs
  | wouldBlock => cases h; simpa using hs
  | failed => cases h; simp
  | sent count =>
      simp only [writeClient] at h
      split at h
      · split at h
        · cases h; simp
        · next output hconsume =>
            cases h
            obtain ⟨hdrop, -, -⟩ := Buffer.consume_ok hconsume
            obtain ⟨answered, hledger⟩ := hs
            refine ⟨fun _ => ⟨answered, ?_⟩, .inl rfl⟩
            simpa [hdrop] using hledger.send count
      · cases h

/-- A worker that leaves for another reason than the stream owes no accounts. -/
theorem valid_left {exit : Exit} (hfile : exit ≠ .endOfFile) (hproto : exit ≠ .request .eproto) :
    ({ s with pc := .left exit } : State).Valid host := by
  constructor
  · intro h
    simp only at h
    unfold Pc.Accounted at h
    split at h <;> simp_all
  · simp only
    unfold PcOk
    split <;> simp_all

/-- **Every step keeps the invariant.** -/
theorem Move.valid (hmove : Move transport host s e s') (hs : s.Valid host) : s'.Valid host := by
  obtain ⟨haccounts, hpcok⟩ := hs
  cases hmove with
  | @stopTest stopping hpc =>
      rw [hpc] at haccounts
      cases stopping with
      | false => exact .moveTo (haccounts trivial) trivial
      | true => exact valid_left (by decide) (by decide)
  | @refused env errno input output hpc hempty hprocess =>
      rw [hpc] at haccounts
      have hspec := processRequest_spec (haccounts trivial) hempty hprocess
      by_cases herrno : errno = .eproto
      · obtain ⟨rfl, rfl, hinvalid⟩ := hspec herrno
        subst herrno
        exact .moveTo (haccounts trivial) ⟨hempty, hinvalid⟩
      · exact valid_left (s := { s with input := input, output := output }) (by simp)
          (by simpa using herrno)
  | @processed env input output hpc hempty hprocess =>
      rw [hpc] at haccounts
      obtain ⟨hbalanced, hdone⟩ := processRequest_spec (haccounts trivial) hempty hprocess
      refine .moveTo (s := { s with input := input, output := output }) hbalanced ?_
      intro hpoll
      have hnil := pollEvents_pollIn hpoll
      exact ⟨hnil, hdone hnil⟩
  | undrained hpc hlen =>
      rw [hpc] at haccounts
      refine .moveTo (haccounts trivial) ?_
      intro hpoll
      exact absurd (congrArg List.length (pollEvents_pollIn hpoll)) hlen
  | pollAgain hpc _ =>
      rw [hpc] at haccounts
      exact .moveTo (haccounts trivial) trivial
  | pollFailed _ => exact valid_left (by decide) (by decide)
  | ready hpc hanswers =>
      rw [hpc] at haccounts hpcok
      simp only [Revents.answers, Bool.and_eq_true, Bool.or_eq_true, Bool.not_eq_true'] at hanswers
      refine .moveTo (haccounts trivial) ?_
      split
      · next hin =>
          -- `poll` reports input only when the worker asked for it
          rw [hin] at hanswers
          exact hpcok (hanswers.1.resolve_left (by decide))
      · unfold afterRead
        split <;> trivial
  | @read revents outcome reallocOk result hpc hread =>
      rw [hpc] at haccounts hpcok
      obtain ⟨exit, s₁⟩ := result
      obtain ⟨hgoes, hfile, hrequest⟩ := readClient_spec (haccounts trivial) hread
      cases exit with
      | none =>
          refine .moveTo (hgoes rfl) ?_
          unfold afterRead
          split <;> trivial
      | some exit =>
          by_cases heof : exit = .endOfFile
          · subst heof
            obtain rfl := hfile rfl
            exact .moveTo (haccounts trivial) hpcok
          · exact valid_left heof fun h => hrequest .eproto (by rw [h])
  | @send revents outcome result hpc hsend =>
      rw [hpc] at haccounts
      obtain ⟨exit, s₁⟩ := result
      obtain ⟨hgoes, rfl | rfl⟩ := writeClient_spec (haccounts trivial) hsend
      · exact .moveTo (hgoes rfl) trivial
      · exact valid_left (by decide) (by decide)
  | checked hpc =>
      rw [hpc] at haccounts
      unfold afterChecks
      split
      · exact valid_left (by decide) (by decide)
      · split
        · exact valid_left (by decide) (by decide)
        · exact .moveTo (haccounts trivial) trivial

theorem workerMain_inductive (transport : Transport) (host : Host) :
    (workerMain transport host).Inductive (State.Valid host) where
  init := by
    rintro s rfl
    exact ⟨fun _ => ⟨[], Ledger.start⟩, trivial⟩
  step _ _ _ hs hstep := (step_move hstep).valid hs

theorem valid_of_reachable (hs : (transport.worker host).Reachable s) : s.Valid host := by
  rw [worker_eq] at hs
  exact (workerMain_inductive transport host).reachable hs

/-! ## The accounts of the session -/

/-- Still in the loop. -/
def Pc.InLoop : Pc → Prop
  | .left _ => False
  | _ => True

/-- **The ledger of a session.** As long as a worker is in its loop, what it has read is the frames
of some requests and the input buffer, what it has sent and is going to send is their responses, and
the output buffer holds a part of the last one alone. When it polls for input, nothing is left to
be sent, and no whole or malformed request is waiting. -/
theorem session_ledger (transport : Transport) (hs : (transport.worker host).Reachable s)
    (hloop : s.pc.InLoop) :
    (∃ requests,
      s.received = requestCodec.encodeAll requests ++ s.input.data ∧
      s.sent ++ s.output.data = requests.flatMap (respond host) ∧
      (s.output.data = [] ∨
        ∃ r, requests.getLast? = some r ∧ s.output.data <:+ respond host r)) ∧
    ∀ events, s.pc = .polling events → events.pollIn = true →
      s.output.data = [] ∧ requestVerdict s.input.data = .needMore := by
  obtain ⟨hbalanced, hpc⟩ := valid_of_reachable hs
  have haccounted : s.pc.Accounted := by
    cases hpc' : s.pc with
    | left exit => rw [hpc'] at hloop; exact hloop.elim
    | _ => trivial
  obtain ⟨answered, hledger⟩ := hbalanced haccounted
  refine ⟨⟨answered, by simpa using hledger.received_eq, hledger.sent_eq, ?_⟩, ?_⟩
  · by_cases hempty : s.output.data = []
    · exact .inl hempty
    · obtain ⟨earlier, last, rfl, hsuffix⟩ := hledger.last_only hempty
      exact .inr ⟨last, by simp, hsuffix⟩
  · intro events hevents hin
    rw [hevents] at hpc
    exact hpc hin

/-- A run of a TCP worker. -/
theorem tcpWorker_reaches (host : Host) (es : List Event) (test : State → Bool)
    (h : (StepSystem.exec (step .tcp host) (.start tcp) es).any test = true) :
    ∃ s, (tcpWorkerMain host).Reachable s ∧ test s = true :=
  StepSystem.exists_reachable rfl h

/-- A round of a TCP worker that ends in `events`. -/
def round (events : List Event) : List Event := [.stopTest false, .process .fair] ++ events

/-- A `PWD` request is read in two pieces, and half of its response is sent. -/
def halfAnswered : List Event :=
  round [.poll (.ready .readable), .read (.data [0, 6, 0, 2]) true, .tick] ++
  round [.poll (.ready .readable), .read (.data [0, 0]) true, .tick] ++
  round [.poll (.ready .writable), .send (.sent 2), .tick]

/-- A worker in the middle of a response. -/
theorem session_ledger_run : ∃ s, (tcpWorkerMain plainHost).Reachable s ∧
    s.sent = [0, 1] ∧ s.output.data = [47] ∧
    ∃ requests, s.received = requestCodec.encodeAll requests ++ s.input.data ∧
      s.sent ++ s.output.data = requests.flatMap (respond plainHost) := by
  obtain ⟨s, hs, htest⟩ := tcpWorker_reaches plainHost halfAnswered
    (fun s => decide (s.pc = .loopTest) && decide (s.sent = [0, 1]) &&
      decide (s.output.data = [47])) (by decide +kernel)
  simp only [Bool.and_eq_true, decide_eq_true_eq] at htest
  obtain ⟨⟨hpc, hsent⟩, houtput⟩ := htest
  obtain ⟨⟨requests, hreceived, hresponses, -⟩, -⟩ :=
    session_ledger .tcp hs (by rw [hpc]; trivial)
  exact ⟨s, hs, hsent, houtput, requests, hreceived, hresponses⟩

/-- The loop ended with the stream, or at a malformed request. -/
inductive Pc.Ended : Pc → Prop
  | endOfFile : Pc.Ended (.left .endOfFile)
  | malformed : Pc.Ended (.left (.request .eproto))

/-- A worker that left at the end of the stream, or at a malformed request, had nothing left to
answer or to send. -/
theorem State.Valid.sent_of_ended (hs : s.Valid host) (hended : s.pc.Ended)
    {stream rest more : Bytes} {requests : List Request} (hstream : stream = s.received ++ more)
    (hend : s.pc = .left .endOfFile → more = [])
    (hmax : requestCodec.Maximal stream requests rest) :
    s.sent = requests.flatMap (respond host) := by
  obtain ⟨hbalanced, hpc⟩ := hs
  have haccounted : s.pc.Accounted := by
    cases hpc' : s.pc with
    | left exit => rw [hpc'] at hended; cases hended <;> trivial
    | _ => trivial
  obtain ⟨answered, hledger⟩ := hbalanced haccounted
  have hsplit : s.received = requestCodec.encodeAll answered ++ s.input.data := by
    simpa using hledger.received_eq
  -- the worker stopped at the end of the maximal split of the stream
  have hfront : s.output.data = [] ∧ answered = requests := by
    generalize hpc' : s.pc = pc at hended
    rw [hpc'] at hpc hend
    cases hended with
    | endOfFile =>
        obtain rfl := hend rfl
        rw [List.append_nil] at hstream
        subst hstream
        exact ⟨hpc.1, (Codec.Maximal.unique (.of_needMore _ hsplit hpc.2) hmax).1⟩
    | malformed =>
        subst hstream
        exact ⟨hpc.1, (Codec.Maximal.unique (.of_invalid _ more hsplit hpc.2) hmax).1⟩
  obtain ⟨hempty, rfl⟩ := hfront
  rw [hempty] at hledger
  exact hledger.sent_of_drained

/-- **Everything that precedes the end is answered.** The peer's stream is `stream`: what has been
read is a front of it, and all of it when the end was read. When the worker has left at the end of
the stream or at a malformed request, it has sent exactly the responses to the requests at the
front of the stream, however the stream was cut. -/
theorem session_answers_everything (transport : Transport)
    (hs : (transport.worker host).Reachable s) (hended : s.pc.Ended) {stream rest more : Bytes}
    {requests : List Request} (hstream : stream = s.received ++ more)
    (hend : s.pc = .left .endOfFile → more = [])
    (hmax : requestCodec.Maximal stream requests rest) :
    s.sent = requests.flatMap (respond host) :=
  (valid_of_reachable hs).sent_of_ended hended hstream hend hmax

/-- The rest of the response is sent, and the end of the stream is read. -/
def halfClosed : List Event :=
  halfAnswered ++ round [.poll (.ready .writable), .send (.sent 1), .tick] ++
  round [.poll (.ready .readable), .read .eof true]

/-- The peer shuts down its side after one request. -/
theorem session_answers_everything_run : ∃ s, (tcpWorkerMain plainHost).Reachable s ∧
    s.pc = .left .endOfFile ∧ s.received = pwdRequest.frame ∧
    s.sent = [pwdRequest].flatMap (respond plainHost) := by
  obtain ⟨s, hs, htest⟩ := tcpWorker_reaches plainHost halfClosed
    (fun s => decide (s.pc = .left .endOfFile) &&
      decide (s.received = pwdRequest.frame)) (by decide +kernel)
  simp only [Bool.and_eq_true, decide_eq_true_eq] at htest
  obtain ⟨hpc, hreceived⟩ := htest
  have hmax : requestCodec.Maximal pwdRequest.frame [pwdRequest] [] :=
    ⟨by simp, rfl⟩
  refine ⟨s, hs, hpc, hreceived, ?_⟩
  exact session_answers_everything .tcp hs (by rw [hpc]; exact .endOfFile)
    (by rw [hreceived, List.append_nil]) (fun _ => rfl) hmax

end Session

end WireCommand.Threaded
