import WireCommand.Foundation.Custody
import WireCommand.Threaded.Session

/-!
# The threaded servers

`wc_server_tcp_run` and `wc_server_uds_threaded_run` accept connections in the main thread and give
each one to a worker thread, which has one of 64 slots of a table. The two programs differ in two
places: the TCP server joins the finished workers also behind each `accept`, and the UDS server
removes its socket when it stops.

The model is the main thread and any number of workers, interleaved. A step is one access that the
mutex protects, one system call, or a piece of code that no other thread can observe: the slots'
`in_use`, `client_fd` and `thread` are written by the main thread only, and a worker reads
`client_fd` once, when it enters `wc_tcp_worker_main`. Inside the worker's loop the steps are those
of `Session.step`. The mutex calls, `pthread_join` and `pthread_mutex_destroy` succeed; `close`
gives up the descriptor also when it reports an error.

The ghosts are the numbers of the connections, in the order in which they are accepted, the
descriptor table with the record of who closed which connection, and how often each thread has been
joined.
-/

namespace WireCommand.Threaded

open Foundation

namespace Server

/-! ## Workers -/

/-- `WC_TCP_MAX_CLIENTS`, `WC_THREADED_UDS_MAX_CLIENTS`. -/
def maxClients : Nat := 64

/-- An index of `workers`. -/
abbrev Slot := Fin maxClients

/-- A `pthread_t`. Threads are numbered in the order in which they are created. -/
abbrev ThreadId := Nat

/-- `struct wc_tcp_worker`, `struct wc_threaded_uds_worker`. -/
structure Worker where
  thread : ThreadId
  clientFd : Int
  inUse : Bool
  finished : Bool
  deriving DecidableEq

/-- `workers`. -/
abbrev Workers := Slot → Worker

/-- `wc_tcp_workers_init`, `wc_threaded_uds_workers_init`, on a server that is all zeros. -/
def workersInit : Workers := fun _ => ⟨0, -1, false, false⟩

/-- The slot behind a `pthread_join`: `client_fd = -1` and `in_use = 0`. -/
def Worker.released (worker : Worker) : Worker := { worker with clientFd := -1, inUse := false }

/-- Where a worker thread is. -/
inductive Stage where
  /-- Created, and `worker->client_fd` has not been read. -/
  | entering
  | serving (session : Session.State)
  /-- Behind the `close`. -/
  | closed
  /-- Behind `wc_tcp_mark_finished`. -/
  | marked
  | exited

/-- A worker thread: its argument, its local `client_fd`, and its stage; `conn` and `joins` are
ghosts. -/
structure Thread where
  slot : Slot
  clientFd : Int
  stage : Stage
  conn : Nat
  joins : Nat

/-- What the calls of `wc_tcp_start_worker` return. Restoring the signal mask may fail as well,
which is only logged. -/
structure StartEnv where
  /-- `sigemptyset` and `sigaddset`. -/
  signalSets : Except Errno Unit
  /-- `pthread_sigmask`. -/
  block : Except Errno Unit
  /-- `pthread_create`. -/
  create : Except Errno Unit

/-- Every call succeeds. -/
def StartEnv.fair : StartEnv := ⟨.ok (), .ok (), .ok ()⟩

/-- The first call of `wc_tcp_start_worker` that fails. -/
def StartEnv.result (env : StartEnv) : Except Errno Unit :=
  firstFailure (firstFailure env.signalSets env.block) env.create

/-- The body of `wc_tcp_start_worker` and `wc_threaded_uds_start_worker`: the slot of the new thread,
and the table they leave. -/
def startWorker (workers : Workers) (clientFd : Int) (thread : ThreadId) (env : StartEnv) :
    Except Errno Slot × Workers :=
  match (List.finRange maxClients).find? fun i => !(workers i).inUse with
  | none => (.error .emfile, workers)
  | some i =>
      let worker := { workers i with clientFd := clientFd, finished := false, inUse := true }
      match env.result with
      | .error e => (.error e, Function.update workers i worker.released)
      | .ok () => (.ok i, Function.update workers i { worker with thread := thread })

/-- `wc_tcp_start_worker`. -/
def tcpStartWorker (workers : Workers) (clientFd : Int) (thread : ThreadId) (env : StartEnv) :
    Except Errno Slot × Workers :=
  startWorker workers clientFd thread env

/-- `wc_threaded_uds_start_worker`. -/
def threadedUdsStartWorker (workers : Workers) (clientFd : Int) (thread : ThreadId)
    (env : StartEnv) : Except Errno Slot × Workers :=
  startWorker workers clientFd thread env

/-! ## The main thread -/

/-- Who may close a client's descriptor. -/
inductive Party where
  | acceptLoop
  | worker (thread : ThreadId)
  deriving DecidableEq

/-- What follows a call of `wc_tcp_reap_finished`. -/
inductive AfterReap where
  | poll
  /-- In the accept loop of the TCP server, with a new descriptor. -/
  | configure (clientFd : Int) (conn : Nat) (listener : Revents)
  deriving DecidableEq

/-- Where the main thread is; `conn` is a ghost. -/
inductive Pc where
  /-- At the call that opens the listener. -/
  | opening
  | loopTest
  /-- In `wc_tcp_reap_finished`, at this index. -/
  | reaping (next : Nat) (after : AfterReap)
  /-- In its `pthread_join`. -/
  | joining (slot : Slot) (thread : ThreadId) (after : AfterReap)
  | polling
  /-- In `wc_tcp_accept_clients`, at the `accept`. -/
  | accepting (listener : Revents)
  /-- At `wc_socket_set_nonblocking` and `wc_tcp_start_worker`. -/
  | configuring (clientFd : Int) (conn : Nat) (listener : Revents)
  /-- At the `close` of a rejected connection. -/
  | rejecting (clientFd : Int) (conn : Nat) (listener : Revents)
  /-- Behind the accept loop. -/
  | checking (listener : Revents)
  /-- At `wc_tcp_request_stop`. -/
  | stopping (result : Except Errno Unit)
  | closingListener (result : Except Errno Unit)
  /-- In `wc_tcp_join_all`, at this index. -/
  | joiningAll (next : Nat) (result : Except Errno Unit)
  /-- At `pthread_mutex_destroy`. -/
  | destroying (result : Except Errno Unit)
  | finished (result : Except Errno Unit)

/-- Behind `wc_tcp_reap_finished`. -/
def AfterReap.pc : AfterReap → Pc
  | .poll => .polling
  | .configure clientFd conn listener => .configuring clientFd conn listener

end Server

/-- How each server starts a worker. -/
def Transport.startWorker : Transport → Server.Workers → Int → Server.ThreadId →
    Server.StartEnv → Except Errno Server.Slot × Server.Workers
  | .tcp => Server.tcpStartWorker
  | .threadedUds => Server.threadedUdsStartWorker

theorem Transport.startWorker_eq (transport : Transport) :
    transport.startWorker = Server.startWorker := by
  cases transport <;> rfl

/-- Behind the `accept`: only the TCP server joins finished workers here. -/
def Transport.afterAccept (transport : Transport) (clientFd : Int) (conn : Nat)
    (listener : Revents) : Server.Pc :=
  match transport with
  | .tcp => .reaping 0 (.configure clientFd conn listener)
  | .threadedUds => .configuring clientFd conn listener

/-- The result behind the calls that close the listener; only the UDS server has a path to
remove. -/
def Transport.closeListener (transport : Transport) (result closed unlinked : Except Errno Unit) :
    Except Errno Unit :=
  match transport with
  | .tcp => firstFailure result closed
  | .threadedUds =>
      -- a path that is already gone is no failure
      firstFailure (firstFailure result closed)
        (if unlinked = .error .enoent then .ok () else unlinked)

namespace Server

/-- What `poll` on the listener returns; a timeout finds nothing. -/
inductive PollOutcome where
  | interrupted
  | failed (e : Errno)
  | returned (listener : Revents)
  deriving DecidableEq

/-- The server. -/
structure State where
  pc : Pc
  stopRequested : Bool
  /-- `stopping`, which the mutex protects. -/
  stopping : Bool
  workers : Workers
  threads : ThreadId → Thread
  nextThread : Nat
  /-- The client descriptors of the process. -/
  descriptors : Custody Int Nat Party
  nextConn : Nat

/-- What the main thread does, with what the environment decides. -/
inductive MainEvent where
  | listen (opened : Except Errno Unit)
  | tick
  | poll (outcome : PollOutcome)
  | accept (outcome : AcceptOutcome)
  | configure (nonblockingOk : Bool) (env : StartEnv)
  | closeListener (closed unlinked : Except Errno Unit)

/-- What a worker does. -/
inductive WorkerEvent where
  | enter
  | serve (e : Session.Event)
  | close
  | markFinished
  | exit

/-- A step of the server: a signal, or a step of one of its threads. -/
inductive Event where
  | signal
  | main (e : MainEvent)
  | worker (t : ThreadId) (e : WorkerEvent)

/-- `pthread_join`, and the slot is released; `none` while the thread runs. -/
def State.join (s : State) (i : Slot) (t : ThreadId) (pc : Pc) : Option State :=
  match (s.threads t).stage with
  | .exited =>
      some { s with
        pc := pc
        threads := Function.update s.threads t
          { s.threads t with joins := (s.threads t).joins + 1 }
        workers := Function.update s.workers i (s.workers i).released }
  | _ => none

/-- The steps of the main thread that depend on nothing outside the process. -/
def State.tick (s : State) : Option State :=
  match s.pc with
  | .loopTest => some { s with pc := if s.stopRequested then .stopping (.ok ()) else .reaping 0 .poll }
  | .reaping next after =>
      if h : next < maxClients then
        let worker := s.workers ⟨next, h⟩
        some { s with
          pc := if worker.inUse && worker.finished then .joining ⟨next, h⟩ worker.thread after
                else .reaping (next + 1) after }
      else
        some { s with pc := after.pc }
  | .joining i t after =>
      -- the thread's number was read under the lock
      s.join i t (.reaping (i + 1) after)
  | .rejecting clientFd _ listener =>
      some { s with
        pc := .accepting listener
        descriptors := s.descriptors.release .acceptLoop clientFd }
  | .checking listener =>
      some { s with pc := if listener.broken then .stopping (.error .eio) else .loopTest }
  | .stopping result => some { s with pc := .closingListener result, stopping := true }
  | .joiningAll next result =>
      if h : next < maxClients then
        -- without the lock: the workers do not write `in_use`
        if (s.workers ⟨next, h⟩).inUse then
          s.join ⟨next, h⟩ (s.workers ⟨next, h⟩).thread (.joiningAll (next + 1) result)
        else
          some { s with pc := .joiningAll (next + 1) result }
      else
        some { s with pc := .destroying result }
  | .destroying result => some { s with pc := .finished result }
  | _ => none

/-- One iteration of `wc_tcp_accept_clients`, `wc_threaded_uds_accept_clients`, up to what follows
the `accept`; `none` when `accept` cannot have this outcome. -/
def State.accept (transport : Transport) (s : State) (listener : Revents) :
    AcceptOutcome → Option State
  | .accepted fd =>
      if 0 ≤ fd ∧ s.descriptors.table fd = none then
        some { s with
          pc := transport.afterAccept fd s.nextConn listener
          descriptors := s.descriptors.acquire fd s.nextConn
          nextConn := s.nextConn + 1 }
      else
        none
  | .interrupted => some s
  | .wouldBlock => some { s with pc := .checking listener }
  | .failed => some { s with pc := .checking listener }

/-- The rest of the iteration, up to the `close` if the connection is rejected. -/
def State.configure (transport : Transport) (s : State) (clientFd : Int) (conn : Nat)
    (listener : Revents) (nonblockingOk : Bool) (env : StartEnv) : State :=
  if nonblockingOk then
    match transport.startWorker s.workers clientFd s.nextThread env with
    | (.error _, workers) =>
        { s with pc := .rejecting clientFd conn listener, workers := workers }
    | (.ok i, workers) =>
        { s with
          pc := .accepting listener
          workers := workers
          -- the new thread has not set its local variables yet
          threads := Function.update s.threads s.nextThread ⟨i, 0, .entering, conn, 0⟩
          nextThread := s.nextThread + 1 }
  else
    { s with pc := .rejecting clientFd conn listener }

/-- `wc_server_tcp_run` and `wc_server_uds_threaded_run`, one step of the main thread. -/
def mainStep (transport : Transport) (s : State) : MainEvent → Option State
  | .listen opened =>
      match s.pc, opened with
      | .opening, .ok () => some { s with pc := .loopTest }
      | .opening, .error e => some { s with pc := .destroying (.error e) }
      | _, _ => none
  | .tick => s.tick
  | .poll outcome =>
      match s.pc with
      | .polling =>
          match outcome with
          | .interrupted => some { s with pc := .loopTest }
          | .failed e => some { s with pc := .stopping (.error e) }
          | .returned listener =>
              if listener.answers ⟨true, false⟩ then
                some { s with pc := if listener.pollIn then .accepting listener
                                    else .checking listener }
              else
                none
      | _ => none
  | .accept outcome =>
      match s.pc with
      | .accepting listener => s.accept transport listener outcome
      | _ => none
  | .configure nonblockingOk env =>
      match s.pc with
      | .configuring clientFd conn listener =>
          some (s.configure transport clientFd conn listener nonblockingOk env)
      | _ => none
  | .closeListener closed unlinked =>
      match s.pc with
      | .closingListener result =>
          some { s with pc := .joiningAll 0 (transport.closeListener result closed unlinked) }
      | _ => none

/-- Puts a thread into a stage. -/
def State.setStage (s : State) (t : ThreadId) (stage : Stage) : State :=
  { s with threads := Function.update s.threads t { s.threads t with stage := stage } }

/-- `wc_tcp_is_stopping` and `wc_threaded_uds_is_stopping` return the flag. -/
def seesFlag (stopping : Bool) : Session.Event → Bool
  | .stopTest b => b == stopping
  | _ => true

/-- `wc_tcp_worker_main` and `wc_threaded_uds_worker_main`, one step. The two calls of
`wc_buffer_init` cannot fail. -/
def workerStep (transport : Transport) (host : Host) (s : State) (t : ThreadId) :
    WorkerEvent → Option State
  | .enter =>
      match (s.threads t).stage with
      | .entering =>
          some { s with
            threads := Function.update s.threads t
              { s.threads t with
                clientFd := (s.workers (s.threads t).slot).clientFd
                stage := .serving (.start transport.config) } }
      | _ => none
  | .serve e =>
      match (s.threads t).stage with
      | .serving session =>
          if seesFlag s.stopping e then
            (Session.step transport host session e).map fun session =>
              s.setStage t (.serving session)
          else
            none
      | _ => none
  | .close =>
      match (s.threads t).stage with
      | .serving session =>
          match session.pc with
          | .left _ =>
              some { s.setStage t .closed with
                descriptors := s.descriptors.release (.worker t) (s.threads t).clientFd }
          | _ => none
      | _ => none
  | .markFinished =>
      match (s.threads t).stage with
      | .closed =>
          let i := (s.threads t).slot
          some { s.setStage t .marked with
            workers := Function.update s.workers i { s.workers i with finished := true } }
      | _ => none
  | .exit =>
      match (s.threads t).stage with
      | .marked => some (s.setStage t .exited)
      | _ => none

/-- One step of the server. `none` says that the event cannot happen here. -/
def step (transport : Transport) (host : Host) (s : State) : Event → Option State
  | .signal => some { s with stopRequested := true }
  | .main e => mainStep transport s e
  | .worker t e => if t < s.nextThread then workerStep transport host s t e else none

/-- The server when it is about to open its listener. -/
def State.start (stopRequested : Bool) : State where
  pc := .opening
  stopRequested := stopRequested
  stopping := false
  workers := workersInit
  threads := fun _ => ⟨⟨0, by decide⟩, 0, .entering, 0, 0⟩
  nextThread := 0
  descriptors := .empty
  nextConn := 0

end Server

/-- `wc_server_tcp_run` and `wc_server_uds_threaded_run`. -/
def Transport.server (transport : Transport) (host : Host) :
    StepSystem Server.State Server.Event :=
  .ofFn (fun s => ∃ stopRequested, s = .start stopRequested) (Server.step transport host)

end WireCommand.Threaded
