import WireCommand.Foundation.StepSystem
import WireCommand.Queue
import WireCommand.Response
import WireCommand.Socket
import Mathlib.Data.Finset.Basic
import Mathlib.Data.Fin.Basic
import Mathlib.Data.Fintype.Basic
import Mathlib.Logic.Function.Basic

/-!
# The poll server

`wc_server_uds_run` as a step system. The server is one thread: it tests the stop flag, works off
the request queue, builds a poll list, sleeps in `poll`, and serves what `poll` reports. Every
system call is a step whose event carries the outcome, and so is every iteration of a loop that
makes one; a signal may arrive between any two steps.

* The **world** is what outlives a step of the loop: the client table, the queue, the descriptors
  open in the process, and three ghosts, which nothing in the program reads: the number of
  connections accepted so far, and the bytes read from and sent on each of them.
* The **program counter** says where in the loop the server is and holds the loop's local data: the
  poll list with the events found, and the entry that is being visited.

Each C function is one definition on the world, or, when it loops over a system call, one iteration
of its loop. A slot carries the number of the connection it holds as a ghost, and so does every
queued request and every entry of the poll list, so that a mix-up through a reused descriptor would
be visible.
-/

namespace WireCommand.Uds

open Protocol

/-- `WC_UDS_MAX_CLIENTS`. -/
def maxClients : Nat := 64

/-- `WC_UDS_MAX_QUEUED_REQUESTS`. -/
def maxQueuedRequests : Nat := 256

/-- `WC_UDS_READ_SIZE`. -/
def readSize : Nat := 4096

/-- `WC_UDS_INPUT_LIMIT`. -/
def inputLimit : Nat := uint16Max

/-- `WC_UDS_OUTPUT_LIMIT`. -/
def outputLimit : Nat := Response.outputLimit

theorem inputLimit_le_sizeMax : inputLimit ≤ sizeMax := uint16Max_le_sizeMax

theorem outputLimit_le_sizeMax : outputLimit ≤ sizeMax := Response.outputLimit_le_sizeMax

/-! ## The client table -/

/-- An index into the client table. -/
abbrev Slot := Fin maxClients

/-- `struct wc_uds_client`; the slot is free when `fd` is -1, and `conn` is a ghost. -/
structure Client where
  fd : Int
  input : Buffer
  output : Buffer
  conn : Nat

/-- A slot without a client. -/
def Client.free : Client where
  fd := -1
  input := .init 0 (Nat.zero_le _)
  output := .init 0 (Nat.zero_le _)
  conn := 0

/-- A client with its two buffers initialized. -/
def Client.connected (fd : Int) (conn : Nat) : Client where
  fd := fd
  input := .init inputLimit inputLimit_le_sizeMax
  output := .init outputLimit outputLimit_le_sizeMax
  conn := conn

/-- The client table. -/
abbrev Clients := Slot → Client

/-- `wc_uds_find_client`. -/
def findClient (clients : Clients) (clientFd : Int) : Option Slot :=
  (List.finRange maxClients).find? fun i => (clients i).fd = clientFd

/-- `wc_uds_has_free_client_slot`. -/
def hasFreeClientSlot (clients : Clients) : Bool :=
  (List.finRange maxClients).any fun i => (clients i).fd = -1

/-- `wc_uds_add_client`: the first free slot takes the client. -/
def addClient (clients : Clients) (clientFd : Int) (conn : Nat) : Except Errno Clients :=
  match (List.finRange maxClients).find? fun i => (clients i).fd = -1 with
  | some i => .ok (Function.update clients i (.connected clientFd conn))
  | none => .error .emfile

/-! ## The world -/

/-- What outlives a step of the loop; `nextConn`, `received` and `sent` are ghosts. -/
structure World where
  clients : Clients
  queue : RequestQueue
  openFds : Finset Int
  nextConn : Nat
  received : Nat → Bytes
  sent : Nat → Bytes

/-- The world after `wc_uds_clients_init` and `wc_request_queue_init`, with some descriptors
open. -/
def World.start (openFds : Finset Int) : World where
  clients _ := .free
  queue := []
  openFds := openFds
  nextConn := 0
  received _ := []
  sent _ := []

/-- The slot holds a client. -/
def World.Live (w : World) (i : Slot) : Prop := (w.clients i).fd ≠ -1

instance (w : World) (i : Slot) : Decidable (w.Live i) := inferInstanceAs (Decidable (_ ≠ _))

/-- The connection has a slot. -/
def World.Connected (w : World) (c : Nat) : Prop := ∃ i, w.Live i ∧ (w.clients i).conn = c

instance (w : World) (c : Nat) : Decidable (w.Connected c) :=
  inferInstanceAs (Decidable (∃ i, w.Live i ∧ (w.clients i).conn = c))

/-- Puts a client into a slot. -/
def World.setClient (w : World) (i : Slot) (client : Client) : World :=
  { w with clients := Function.update w.clients i client }

/-- Notes bytes that arrived on a connection. -/
def World.noteReceived (w : World) (conn : Nat) (bytes : Bytes) : World :=
  { w with received := Function.update w.received conn (w.received conn ++ bytes) }

/-- Notes bytes that left on a connection. -/
def World.noteSent (w : World) (conn : Nat) (bytes : Bytes) : World :=
  { w with sent := Function.update w.sent conn (w.sent conn ++ bytes) }

/-- `close` of a descriptor. It may report an error and still have released the number. -/
def World.close (w : World) (fd : Int) (released : Bool) : World :=
  { w with openFds := if released then w.openFds.erase fd else w.openFds }

/-- `wc_uds_remove_client`. -/
def removeClient (w : World) (i : Slot) (released : Bool) : World :=
  let client := w.clients i
  if client.fd = -1 then
    w
  else
    let w := { w with queue := Queue.discardClient w.queue client.fd }
    let w := w.setClient i
      { client with fd := -1, input := client.input.destroy, output := client.output.destroy }
    w.close client.fd released

/-! ## Reading -/

/-- Every outcome of one iteration of a loop over a system call: go round again, or leave the
function with 0 or with -1. -/
inductive Iteration where
  | again
  | done
  | failed
  deriving DecidableEq, Repr

/-- The allocations of one iteration of `wc_uds_read_client`: the buffer's `realloc`, and the
`malloc` of each queued request. One failure ends the iteration, so it is enough to say at which
length of the queue it comes, if it does. -/
structure ReadEnv where
  reallocOk : Bool
  mallocFailsAt : Option Nat
  deriving DecidableEq

/-- Whether a request can be added to a queue of this length. -/
def ReadEnv.mallocOk (env : ReadEnv) (length : Nat) : Bool := env.mallocFailsAt ≠ some length

/-- Every allocation succeeds. -/
def ReadEnv.fair : ReadEnv := ⟨true, none⟩

/-- `wc_uds_enqueue_complete_requests`: its result, and the input buffer and the queue it leaves. -/
def enqueueCompleteRequests (clientFd : Int) (conn : Nat) (mallocOk : Nat → Bool) (input : Buffer)
    (queue : RequestQueue) : Except Errno Unit × Buffer × RequestQueue :=
  match _hparse : requestVerdict input.data with
  | .needMore => (.ok (), input, queue)
  | .invalid => (.error .eproto, input, queue)
  | .complete request consumed =>
      if queue.length ≥ maxQueuedRequests then
        (.error .enobufs, input, queue)
      else
        match Queue.enqueue queue clientFd request.type.code request.argument conn
            (mallocOk queue.length) with
        | .error e => (.error e, input, queue)
        | .ok queue =>
            match _hconsume : input.consume consumed with
            | .error e => (.error e, input, queue)
            | .ok input => enqueueCompleteRequests clientFd conn mallocOk input queue
termination_by input.data.length
decreasing_by
  obtain ⟨rfl, rest, hdata⟩ := requestVerdict_complete _hparse
  obtain ⟨hdrop, -, -⟩ := Buffer.consume_ok _hconsume
  rw [hdrop, List.length_drop, hdata, List.length_append, Request.frame_length, requestHeaderSize]
  omega

/-- The number of bytes `wc_uds_read_client` asks for. -/
def nextReadSize (input : Buffer) : Nat := input.nextReadSize readSize

/-- One iteration of `wc_uds_read_client`; `none` when `read` cannot have this outcome. The outcome
is looked at only when the call is made. -/
def readClient (w : World) (i : Slot) (outcome : ReadOutcome) (env : ReadEnv) :
    Option (Iteration × World) :=
  let client := w.clients i
  if nextReadSize client.input = 0 then
    some (.failed, w)
  else
    match outcome with
    | .data bytes =>
        if 0 < bytes.length ∧ bytes.length ≤ nextReadSize client.input then
          let w := w.noteReceived client.conn bytes
          match client.input.append bytes env.reallocOk with
          | .error _ => some (.failed, w)
          | .ok input =>
              let (result, input, queue) :=
                enqueueCompleteRequests client.fd client.conn env.mallocOk input w.queue
              let w := { w.setClient i { client with input := input } with queue := queue }
              match result with
              | .error _ => some (.failed, w)
              | .ok () => some (.again, w)
        else
          none
    | .eof => some (.failed, w)
    | .interrupted => some (.again, w)
    | .wouldBlock => some (.done, w)
    | .failed => some (.failed, w)

/-! ## Writing -/

/-- One iteration of `wc_uds_write_client`, the test of its loop included; `none` when `send` cannot
have this outcome. -/
def writeClient (w : World) (i : Slot) (outcome : SendOutcome) : Option (Iteration × World) :=
  let client := w.clients i
  if client.output.length = 0 then
    some (.done, w)
  else
    match outcome with
    | .sent count =>
        if 0 < count ∧ count ≤ client.output.length then
          let w := w.noteSent client.conn (client.output.data.take count)
          match client.output.consume count with
          | .error _ => some (.failed, w)
          | .ok output => some (.again, w.setClient i { client with output := output })
        else
          none
    | .interrupted => some (.again, w)
    | .wouldBlock => some (.done, w)
    | .failed => some (.failed, w)

/-! ## Processing -/

/-- `wc_uds_run_command`. -/
def runCommand (host : Host) (request : QueuedRequest) : CommandResult :=
  Response.runCommand host request.type request.argument

/-- `wc_uds_encode_command_response`: the result, and the output buffer it leaves. -/
def encodeCommandResponse (host : Host) (output : Buffer) (request : QueuedRequest)
    (env : Response.Env) : Except Errno Unit × Buffer :=
  Response.encodeResult host output (runCommand host request) env

/-- One iteration of `wc_uds_process_queue`; `false` when the function returns. -/
def processQueue (host : Host) (w : World) (env : Response.Env) (released : Bool) : Bool × World :=
  match Queue.peek w.queue with
  | none => (false, w)
  | some first =>
      match findClient w.clients first.clientFd with
      | none =>
          match Queue.dequeue w.queue with
          | .error _ => (true, w)
          | .ok (_, rest) => (true, { w with queue := rest })
      | some i =>
          let client := w.clients i
          if client.output.length ≠ 0 then
            (false, w)
          else
            match Queue.dequeue w.queue with
            | .error _ => (false, w)
            | .ok (request, rest) =>
                let (result, output) := encodeCommandResponse host client.output request env
                let w := { w.setClient i { client with output := output } with queue := rest }
                match result with
                | .error _ => (true, removeClient w i released)
                | .ok () => (true, w)

/-! ## Accepting -/

/-- The world with one more connection, whose descriptor is open. -/
def World.connect (w : World) (fd : Int) : World :=
  { w with openFds := insert fd w.openFds, nextConn := w.nextConn + 1 }

/-- One iteration of `wc_uds_accept_clients`; `false` when the function returns, and `none` when
`accept` cannot have this outcome: a new descriptor is a number that is not open. -/
def acceptClients (w : World) (outcome : AcceptOutcome) (nonblockingOk released : Bool) :
    Option (Bool × World) :=
  if hasFreeClientSlot w.clients then
    match outcome with
    | .accepted fd =>
        if 0 ≤ fd ∧ fd ∉ w.openFds then
          let conn := w.nextConn
          let w := w.connect fd
          if nonblockingOk then
            match addClient w.clients fd conn with
            | .error _ => some (true, w.close fd released)
            | .ok clients => some (true, { w with clients := clients })
          else
            some (true, w.close fd released)
        else
          none
    | .interrupted => some (true, w)
    | .wouldBlock => some (false, w)
    | .failed => some (false, w)
  else
    some (false, w)

/-! ## The poll list -/

/-- A client's `struct pollfd` with its entry of `client_indexes`; `conn` is a ghost. -/
structure PollEntry where
  fd : Int
  events : Events
  revents : Revents
  slot : Slot
  conn : Nat
  deriving DecidableEq

/-- The entry of a client. -/
def pollEntry (clients : Clients) (i : Slot) : PollEntry where
  fd := (clients i).fd
  events := ⟨true, (clients i).output.length > 0⟩
  revents := .none
  slot := i
  conn := (clients i).conn

/-- `wc_uds_build_poll_list`, without the listener's entry. -/
def buildPollList (clients : Clients) : List PollEntry :=
  ((List.finRange maxClients).filter fun i => (clients i).fd ≠ -1).map (pollEntry clients)

/-- What `wc_uds_build_poll_list` asks of the listener. -/
def listenerEvents (clients : Clients) : Events := ⟨hasFreeClientSlot clients, false⟩

/-- What `poll` returns. -/
inductive PollOutcome where
  | interrupted
  | failed (e : Errno)
  | ready (listener : Revents) (clients : List Revents)
  deriving DecidableEq

/-- `poll` without a timeout answers every entry, and at least one of them with something. -/
def pollAnswers (listener : Revents) (clients : List Revents) (listenerEvents : Events)
    (entries : List PollEntry) : Bool :=
  clients.length = entries.length &&
  listener.answers listenerEvents &&
  (entries.zip clients).all (fun p => p.2.answers p.1.events) &&
  (listener :: clients).any (· ≠ Revents.none)

/-- The poll list with the events found. -/
def fillRevents (entries : List PollEntry) (clients : List Revents) : List PollEntry :=
  (entries.zip clients).map fun (entry, revents) => { entry with revents := revents }

/-! ## The loop -/

/-- What is done next for the entry that is being visited. -/
inductive Phase where
  | read
  | write
  | check
  deriving DecidableEq, Repr

/-- Where `wc_server_uds_run` is. -/
inductive Pc where
  | loopTest
  | processQueue
  | buildPollList
  /-- Asleep in `poll`; `interrupted` when a signal arrived during the call. -/
  | polling (listener : Events) (entries : List PollEntry) (interrupted : Bool)
  | serving (listener : Revents) (todo : List PollEntry)
  | visiting (phase : Phase) (entry : PollEntry) (listener : Revents) (todo : List PollEntry)
  | accepting
  /-- In `wc_uds_close_all_clients`, at a slot; `result` is what the server is going to return. -/
  | closing (result : Except Errno Unit) (next : Nat)
  | closed (result : Except Errno Unit)
  | finished (result : Except Errno Unit)

/-- A signal interrupts `poll` and nothing else. -/
def Pc.interrupt : Pc → Pc
  | .polling listener entries _ => .polling listener entries true
  | pc => pc

/-- Behind a read that left the client in place. -/
def afterRead (entry : PollEntry) (listener : Revents) (todo : List PollEntry) : Pc :=
  .visiting (if entry.revents.pollOut then .write else .check) entry listener todo

/-- At the front of the loop's body for a live client. -/
def visit (entry : PollEntry) (listener : Revents) (todo : List PollEntry) : Pc :=
  if entry.revents.pollIn then .visiting .read entry listener todo
  else afterRead entry listener todo

/-- The server. -/
structure State where
  pc : Pc
  stopRequested : Bool
  world : World

/-- What the environment does. -/
inductive Event where
  /-- SIGINT or SIGTERM: `wc_handle_stop_signal` sets the flag. -/
  | signal
  /-- A step that asks nothing of the environment. -/
  | tick
  | process (env : Response.Env) (released : Bool)
  | poll (outcome : PollOutcome)
  | read (outcome : ReadOutcome) (env : ReadEnv) (released : Bool)
  | send (outcome : SendOutcome) (released : Bool)
  | accept (outcome : AcceptOutcome) (nonblockingOk released : Bool)
  | close (released : Bool)
  /-- `close` of the listener and `unlink` of its path. -/
  | shutdown (closed unlinked : Except Errno Unit)

/-- The steps of the loop that ask nothing of the environment. -/
def tick (s : State) : Option State :=
  match s.pc with
  | .loopTest =>
      some { s with pc := if s.stopRequested then .closing (.ok ()) 0 else .processQueue }
  | .buildPollList =>
      some { s with
        pc := .polling (listenerEvents s.world.clients) (buildPollList s.world.clients) false }
  | .serving listener [] => some { s with pc := if listener.pollIn then .accepting else .loopTest }
  | .serving listener (entry :: todo) =>
      some { s with
        pc := if (s.world.clients entry.slot).fd = -1 then .serving listener todo
              else visit entry listener todo }
  | _ => none

/-- What the loop does with the result of `poll`. An interrupted call is one a signal arrived in. -/
def pollReturns (s : State) (outcome : PollOutcome) : Option State :=
  match s.pc with
  | .polling listenerEvents entries interrupted =>
      match outcome with
      | .interrupted => if interrupted then some { s with pc := .loopTest } else none
      | .failed e => some { s with pc := .closing (.error e) 0 }
      | .ready listener clients =>
          if pollAnswers listener clients listenerEvents entries then
            some { s with
              pc := if listener.broken then .closing (.error .eio) 0
                    else .serving listener (fillRevents entries clients) }
          else
            none
  | _ => none

/-- Where the loop goes after an iteration of a client's read or write. -/
def continueVisit (s : State) (entry : PollEntry) (listener : Revents) (todo : List PollEntry)
    (next : Pc) (released : Bool) : Iteration × World → State
  | (.again, w) => { s with world := w }
  | (.done, w) => { s with pc := next, world := w }
  | (.failed, w) =>
      { s with pc := .serving listener todo, world := removeClient w entry.slot released }

/-- `wc_server_uds_run`, one step. `none` says that the event cannot happen here. -/
def step (host : Host) (s : State) : Event → Option State
  | .signal =>
      match s.pc with
      | .finished _ => none
      | pc => some { s with pc := pc.interrupt, stopRequested := true }
  | .tick => tick s
  | .process env released =>
      match s.pc with
      | .processQueue =>
          let (again, w) := processQueue host s.world env released
          some { s with pc := if again then .processQueue else .buildPollList, world := w }
      | _ => none
  | .poll outcome => pollReturns s outcome
  | .read outcome env released =>
      match s.pc with
      | .visiting .read entry listener todo =>
          (readClient s.world entry.slot outcome env).map
            (continueVisit s entry listener todo (afterRead entry listener todo) released)
      | _ => none
  | .send outcome released =>
      match s.pc with
      | .visiting .write entry listener todo =>
          (writeClient s.world entry.slot outcome).map
            (continueVisit s entry listener todo (.visiting .check entry listener todo) released)
      | _ => none
  | .accept outcome nonblockingOk released =>
      match s.pc with
      | .accepting =>
          (acceptClients s.world outcome nonblockingOk released).map fun (again, w) =>
            { s with pc := if again then .accepting else .loopTest, world := w }
      | _ => none
  | .close released =>
      match s.pc with
      | .visiting .check entry listener todo =>
          some { s with
            pc := .serving listener todo
            world := if entry.revents.broken then removeClient s.world entry.slot released
                     else s.world }
      | .closing result next =>
          if h : next < maxClients then
            some { s with
              pc := .closing result (next + 1)
              world := removeClient s.world ⟨next, h⟩ released }
          else
            some { s with pc := .closed result }
      | _ => none
  | .shutdown closed unlinked =>
      match s.pc with
      | .closed result =>
          -- a path that is already gone is no failure
          let unlinked := if unlinked = .error .enoent then .ok () else unlinked
          some { s with
            pc := .finished (firstFailure (firstFailure result closed) unlinked)
            world := { s.world with queue := Queue.clear s.world.queue } }
      | _ => none

/-- The server when it enters its loop; a signal may have arrived already. -/
def State.start (openFds : Finset Int) (stopRequested : Bool) : State where
  pc := .loopTest
  stopRequested := stopRequested
  world := .start openFds

/-- The poll server. -/
def server (host : Host) : Foundation.StepSystem State Event :=
  .ofFn (fun s => ∃ openFds stopRequested, s = .start openFds stopRequested) (step host)

end WireCommand.Uds
