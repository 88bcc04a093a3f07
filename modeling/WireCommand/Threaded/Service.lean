import WireCommand.RequestService
import WireCommand.Threaded.Lifecycle

/-!
# The threaded servers implement the request service

Threads that come and go, a table of slots they share, descriptors whose numbers are used again: none
of it can be seen from outside. `Server.observe` says what can: connections are opened by the accept
loop and closed by it or by a worker, and between the two a worker reads, runs and sends. In every
interleaving that is something the request service may do.

The argument has two layers. A worker on its own implements one connection (`Session.Tracks`,
`Session.Move.simulated`); and each connection is at any time with the accept loop, with one worker,
or closed (`Server.State.Tracks`), so the steps of the threads are steps of different connections.
-/

namespace WireCommand.Threaded

open Foundation Foundation.Framing Foundation.Service Protocol

/-! ## One worker -/

namespace Session

/-- What the outside sees of a worker's step. -/
def observe (config : Config) (s : State) : Event → List Observation
  | .process _ =>
      if s.output.length = 0 then
        match requestVerdict s.input.data with
        | .complete request _ => [.runs request]
        | _ => []
      else []
  | .read (.data bytes) _ =>
      if s.input.nextReadSize config.readSize = 0 then [] else [.receives bytes]
  | .send (.sent count) => [.sends (s.output.data.take count)]
  | _ => []

variable {transport : Transport} {config : Config} {host : Host} {s s' : State} {e : Event}
  {x : Connection Request UInt8}

/-- The connection is what the worker has made of it. A worker that has left its loop may have left
in the middle of something. -/
structure Tracks (host : Host) (s : State) (x : Connection Request UInt8) : Prop where
  opened : x.status = .opened
  received : x.received = s.received
  sent : x.sent = s.sent
  serving : s.pc.InLoop → Serving requestCodec (respond host) x [] s.input.data s.output.data

/-- Only the program counter changes. -/
theorem Tracks.moveTo (h : Tracks host s x) (hloop : s.pc.InLoop) (pc : Pc) :
    Tracks host { s with pc := pc } x :=
  ⟨h.opened, h.received, h.sent, fun _ => h.serving hloop⟩

/-- What a step of a worker adds to its connection. -/
def Simulated (config : Config) (host : Host) (s : State) (x : Connection Request UInt8)
    (e : Event) (s' : State) : Prop :=
  ∃ x', (requestConnection host).Run x (observe config s e) x' ∧ Tracks host s' x'

/-- A step of which the outside sees nothing. -/
theorem Tracks.silent (h : Tracks host s' x) (hobserve : observe config s e = []) :
    Simulated config host s x e s' := by
  refine ⟨x, ?_, h⟩
  rw [hobserve]
  exact .nil

/-- A request is processed when nothing is left to send. -/
theorem processRequest_simulated {env : Response.Env} {input output : Buffer} {pc : Pc}
    {result : Except Errno Unit} (ht : Tracks host s x) (hloop : s.pc.InLoop)
    (hempty : s.output.data = [])
    (h : transport.processRequest host s.input s.output env = (result, input, output))
    (hleft : result ≠ .ok () → ¬ pc.InLoop) :
    Simulated config host s x (.process env)
      { s with pc := pc, input := input, output := output } := by
  have hlen : s.output.length = 0 := by rw [Buffer.length, hempty]; rfl
  have hserving := ht.serving hloop
  rw [transport.processRequest_eq, processRequest] at h
  split at h
  · next hparse =>
      cases h
      exact (ht.moveTo hloop pc).silent (by simp [observe, hlen, hparse])
  · next hparse =>
      cases h
      exact (ht.moveTo hloop pc).silent (by simp [observe, hlen, hparse])
  · next request consumed hparse =>
      obtain ⟨rfl, rest, hdata⟩ := requestVerdict_complete hparse
      have hobserve : observe config s (.process env) = [.runs request] := by
        simp [observe, hlen, hparse]
      -- the frame becomes a pending request and is run at once
      rw [hdata, hempty] at hserving
      have hparsed : Serving requestCodec (respond host) x [request] rest [] :=
        Serving.parse (by rw [requestCodec.encodeAll_singleton]; exact hserving)
      obtain ⟨hallows, hafter⟩ := hparsed.runs
      refine ⟨_, by rw [hobserve]; exact run_one hallows, hafter.opened, ht.received, ht.sent, ?_⟩
      intro hstays
      have hok : result = .ok () := by
        by_contra hne
        exact hleft hne hstays
      split at h
      · cases h
        cases hok
      · next output₁ hencode =>
          obtain ⟨hresponse, -⟩ := Response.encodeCommandResponse_ok hencode
          obtain ⟨input₁, hconsume⟩ := Buffer.consume_of_le s.input
            request.frame.length (by rw [hdata, List.length_append]; omega)
          obtain ⟨hdrop, -, -⟩ := Buffer.consume_ok hconsume
          have hrespond : output₁.data = respond host request := by rw [hresponse, hempty]; rfl
          have hrest : input₁.data = rest := by rw [hdrop, hdata, List.drop_left]
          rw [hconsume] at h
          cases h
          simp only [hrest, hrespond]
          exact hafter

theorem readClient_simulated {revents : Revents} {outcome : ReadOutcome} {reallocOk : Bool}
    {result : Option Exit × State} (ht : Tracks host s x) (hloop : s.pc.InLoop)
    (h : readClient config s outcome reallocOk = some result) :
    Simulated config host s x (.read outcome reallocOk)
      (continueWith (afterRead revents) result) := by
  have hserving := ht.serving hloop
  unfold readClient at h
  split at h
  · next hfull =>
      cases h
      refine (ht.moveTo hloop _).silent ?_
      cases outcome <;> simp [observe, hfull]
  · next hroom =>
      cases outcome with
      | eof | interrupted | wouldBlock | failed =>
          cases h
          exact (ht.moveTo hloop _).silent rfl
      | data bytes =>
          simp only at h
          split at h
          · obtain ⟨hallows, hafter⟩ := hserving.receives bytes
            have hrun : (requestConnection host).Run x
                (observe config s (.read (.data bytes) reallocOk)) (x.after (.receives bytes)) := by
              simp only [observe, hroom, if_false]
              exact run_one hallows
            have hreceived : (x.after (.receives bytes)).received = s.received ++ bytes := by
              simp [Connection.after, ht.received]
            split at h
            · cases h
              exact ⟨_, hrun, hafter.opened, hreceived, ht.sent, fun hstays => hstays.elim⟩
            · next input happend =>
                obtain ⟨hdata, -, -⟩ := Buffer.append_ok happend
                cases h
                refine ⟨_, hrun, hafter.opened, hreceived, ht.sent, fun _ => ?_⟩
                simp only [continueWith, hdata]
                exact hafter
          · cases h

theorem writeClient_simulated {revents : Revents} {outcome : SendOutcome}
    {result : Option Exit × State} (ht : Tracks host s x) (hloop : s.pc.InLoop)
    (h : writeClient s outcome = some result) :
    Simulated config host s x (.send outcome) (continueWith (.checking revents) result) := by
  have hserving := ht.serving hloop
  cases outcome with
  | interrupted | wouldBlock | failed =>
      cases h
      exact (ht.moveTo hloop _).silent rfl
  | sent count =>
      simp only [writeClient] at h
      split at h
      · obtain ⟨hallows, hafter⟩ := hserving.sends count
        have hsent : (x.after (.sends (s.output.data.take count))).sent =
            s.sent ++ s.output.data.take count := by
          simp [Connection.after, ht.sent]
        split at h
        · cases h
          exact ⟨_, run_one hallows, hafter.opened, ht.received, hsent, fun hstays => hstays.elim⟩
        · next output hconsume =>
            obtain ⟨hdrop, -, -⟩ := Buffer.consume_ok hconsume
            cases h
            refine ⟨_, run_one hallows, hafter.opened, ht.received, hsent, fun _ => ?_⟩
            simp only [continueWith, hdrop]
            exact hafter
      · cases h

/-- **A worker implements one connection.** -/
theorem Move.simulated (hmove : Move transport host s e s') (ht : Tracks host s x) :
    Simulated transport.config host s x e s' := by
  cases hmove with
  | stopTest hpc | checked hpc | pollFailed hpc | pollAgain hpc _ | ready hpc _ =>
      exact (ht.moveTo (by rw [hpc]; trivial) _).silent rfl
  | undrained hpc hlen =>
      exact (ht.moveTo (by rw [hpc]; trivial) _).silent (by simp [observe, hlen])
  | refused hpc hempty hprocess =>
      exact processRequest_simulated ht (by rw [hpc]; trivial) hempty hprocess fun _ h => h
  | processed hpc hempty hprocess =>
      exact processRequest_simulated ht (by rw [hpc]; trivial) hempty hprocess
        fun h => absurd rfl h
  | read hpc hread => exact readClient_simulated ht (by rw [hpc]; trivial) hread
  | send hpc hsend => exact writeClient_simulated ht (by rw [hpc]; trivial) hsend

/-- A worker that enters its loop. -/
theorem tracks_start (config : Config) :
    Tracks host (.start config) (Connection.fresh.after .opens) :=
  ⟨rfl, rfl, rfl, fun _ => Serving.opens.2⟩

end Session

/-! ## All threads -/

namespace Server

/-- What the outside sees of a step. -/
def observe (transport : Transport) (s : State) : Event → List (Nat × Observation)
  | .main (.accept (.accepted _)) => [(s.nextConn, .opens)]
  | .main .tick =>
      match s.pc with
      | .rejecting _ conn _ => [(conn, .closes)]
      | _ => []
  | .worker t (.serve e) =>
      match (s.threads t).stage with
      | .serving session =>
          (Session.observe transport.config session e).map fun a => ((s.threads t).conn, a)
      | _ => []
  | .worker t .close => [((s.threads t).conn, .closes)]
  | _ => []

variable {transport : Transport} {host : Host} {s s' : State} {e : Event} {t : Connections}

/-! ### Where the connections are -/

/-- The connection is what the thread has made of it. -/
def Stage.Tracks (host : Host) (x : Connection Request UInt8) : Stage → Prop
  | .entering => x = Connection.fresh.after .opens
  | .serving session => Session.Tracks host session x
  | _ => x.status = .closed

/-- The connections are what the threads have made of them. -/
structure State.Tracks (host : Host) (s : State) (t : Connections) : Prop where
  fresh : ∀ c, s.nextConn ≤ c → t c = .fresh
  pending : ∀ fd conn, s.pc.pending = some (fd, conn) → t conn = Connection.fresh.after .opens
  thread : ∀ u, u < s.nextThread → (s.threads u).stage.Tracks host (t (s.threads u).conn)
  opened : ∀ c, (t c).status = .opened →
    (∃ fd, s.pc.pending = some (fd, c)) ∨ ∃ u, u < s.nextThread ∧ (s.threads u).conn = c

/-- No thread changes its stage, and no connection its place. -/
structure Unmoved (s s' : State) : Prop where
  pending : s'.pc.pending = s.pc.pending
  nextConn : s'.nextConn = s.nextConn
  nextThread : s'.nextThread = s.nextThread
  stage : ∀ u, (s'.threads u).stage = (s.threads u).stage
  conn : ∀ u, (s'.threads u).conn = (s.threads u).conn

theorem State.Tracks.unmoved (ht : s.Tracks host t) (h : Unmoved s s') : s'.Tracks host t := by
  refine ⟨?_, ?_, ?_, ?_⟩
  · rw [h.nextConn]
    exact ht.fresh
  · rw [h.pending]
    exact ht.pending
  · intro u hu
    rw [h.nextThread] at hu
    rw [h.stage, h.conn]
    exact ht.thread u hu
  · intro c hc
    rw [h.pending, h.nextThread]
    simpa only [h.conn] using ht.opened c hc

/-- A step that moves the main thread and nothing else. -/
theorem Unmoved.of_pc {pc : Pc} (hpending : pc.pending = s.pc.pending) :
    Unmoved s { s with pc := pc } := ⟨hpending, rfl, rfl, fun _ => rfl, fun _ => rfl⟩

/-- A thread goes on to another stage with its connection. -/
structure Advances (s : State) (u : ThreadId) (stage : Stage) (s' : State) : Prop where
  pending : s'.pc.pending = s.pc.pending
  nextConn : s'.nextConn = s.nextConn
  nextThread : s'.nextThread = s.nextThread
  conn : ∀ v, (s'.threads v).conn = (s.threads v).conn
  stage : (s'.threads u).stage = stage
  other : ∀ v, v ≠ u → (s'.threads v).stage = (s.threads v).stage

theorem State.Tracks.advance (ht : s.Tracks host t) (hs : ConnsOk s) {u : ThreadId}
    (hu : u < s.nextThread) {stage : Stage} (h : Advances s u stage s')
    {x : Connection Request UInt8} (hx : stage.Tracks host x) :
    s'.Tracks host (Function.update t (s.threads u).conn x) := by
  refine ⟨?_, ?_, ?_, ?_⟩
  · intro c hc
    have hlt := hs.conn_lt u hu
    rw [h.nextConn] at hc
    rw [Function.update_of_ne (by omega)]
    exact ht.fresh c hc
  · intro fd conn hpending
    rw [h.pending] at hpending
    rw [Function.update_of_ne (hs.pending fd conn hpending u hu).symm]
    exact ht.pending fd conn hpending
  · intro v hv
    rw [h.nextThread] at hv
    rw [h.conn]
    by_cases hvu : v = u
    · subst hvu
      rw [Function.update_self, h.stage]
      exact hx
    · have hne : (s.threads v).conn ≠ (s.threads u).conn := fun h => hvu (hs.conn_inj v u hv hu h)
      rw [Function.update_of_ne hne, h.other v hvu]
      exact ht.thread v hv
  · intro c hc
    rw [h.pending, h.nextThread]
    simp only [h.conn]
    by_cases hcu : c = (s.threads u).conn
    · exact .inr ⟨u, hu, hcu.symm⟩
    · rw [Function.update_of_ne hcu] at hc
      exact ht.opened c hc

/-- The thread's connection does not change with its stage. -/
theorem State.Tracks.advance_silent (ht : s.Tracks host t) (hs : ConnsOk s) {u : ThreadId}
    (hu : u < s.nextThread) {stage : Stage} (h : Advances s u stage s')
    (hx : stage.Tracks host (t (s.threads u).conn)) : s'.Tracks host t := by
  have hadvance := ht.advance hs hu h hx
  rwa [Function.update_eq_self] at hadvance

/-- A thread is put into a stage, whatever becomes of its slot and its descriptor. -/
theorem advances_update {u : ThreadId} {thread : Thread} (hconn : thread.conn = (s.threads u).conn)
    (workers : Workers) (descriptors : Custody Int Nat Party) :
    Advances s u thread.stage
      { s with
        threads := Function.update s.threads u thread
        workers := workers
        descriptors := descriptors } where
  pending := rfl
  nextConn := rfl
  nextThread := rfl
  conn := conn_update hconn
  stage := by simp
  other v hv := by simp [hv]

/-! ### The main thread -/

/-- The connections after a step, and that the service may do what the outside sees of it. -/
def Simulated (transport : Transport) (host : Host) (s : State) (t : Connections) (e : Event)
    (s' : State) : Prop :=
  ∃ t', (requestService host).Run t (observe transport s e) t' ∧ s'.Tracks host t'

/-- A step of which the outside sees nothing. -/
theorem State.Tracks.silent (ht : s'.Tracks host t) (hobserve : observe transport s e = []) :
    Simulated transport host s t e s' := by
  refine ⟨t, ?_, ht⟩
  rw [hobserve]
  exact .nil

theorem joined_unmoved (i : Slot) (u : ThreadId) {pc : Pc} (hpending : pc.pending = s.pc.pending) :
    Unmoved s (s.joined i u pc) where
  pending := hpending
  nextThread := rfl
  nextConn := rfl
  conn := conn_update rfl
  stage := joined_stage i u pc

/-- The accept loop closes the connection it has. -/
theorem rejecting_simulated {fd : Int} {conn : Nat} {listener : Revents} (ht : s.Tracks host t)
    (hs : ConnsOk s) (hpc : s.pc = .rejecting fd conn listener) :
    Simulated transport host s t (.main .tick)
      { s with pc := .accepting listener, descriptors := s.descriptors.release .acceptLoop fd } := by
  have hpending : s.pc.pending = some (fd, conn) := by rw [hpc]; rfl
  have hopened := ht.pending fd conn hpending
  have hrun : (requestConnection host).Run (t conn) [.closes]
      ((Connection.fresh.after .opens).after .closes) := by
    rw [hopened]
    exact run_one rfl
  refine ⟨_, by simp only [observe, hpc]; exact StepSystem.family_run hrun, ?_,
    (fun _ _ h => by cases h), ?_, ?_⟩
  · intro c hc
    have hne : c ≠ conn := by
      rintro rfl
      rw [ht.fresh c hc] at hopened
      cases hopened
    rw [Function.update_of_ne hne]
    exact ht.fresh c hc
  · intro u hu
    rw [Function.update_of_ne (hs.pending fd conn hpending u hu)]
    exact ht.thread u hu
  · intro c hc
    have hne : c ≠ conn := by
      rintro rfl
      rw [Function.update_self] at hc
      cases hc
    rw [Function.update_of_ne hne] at hc
    rcases ht.opened c hc with ⟨fd', h⟩ | h
    · rw [hpending] at h
      cases h
      exact absurd rfl hne
    · exact .inr h

/-- A connection arrives. -/
theorem accepting_simulated {listener : Revents} {fd : Int} (ht : s.Tracks host t) (hs : ConnsOk s)
    (hpc : s.pc = .accepting listener) :
    Simulated transport host s t (.main (.accept (.accepted fd)))
      { s with
        pc := transport.afterAccept fd s.nextConn listener
        descriptors := s.descriptors.acquire fd s.nextConn
        nextConn := s.nextConn + 1 } := by
  have hidle : s.pc.pending = none := by rw [hpc]; rfl
  have hnew : t s.nextConn = .fresh := ht.fresh _ (le_refl _)
  have hpending : (transport.afterAccept fd s.nextConn listener).pending =
      some (fd, s.nextConn) := by
    cases transport <;> rfl
  have hrun : (requestConnection host).Run (t s.nextConn) [.opens]
      (Connection.fresh.after .opens) := by
    rw [hnew]
    exact run_one rfl
  refine ⟨_, StepSystem.family_run hrun, ?_, ?_, ?_, ?_⟩
  · intro c hc
    have hc : s.nextConn + 1 ≤ c := hc
    rw [Function.update_of_ne (by omega)]
    exact ht.fresh c (by omega)
  · intro fd' conn h
    cases hpending.symm.trans h
    rw [Function.update_self]
  · intro u hu
    rw [Function.update_of_ne (hs.conn_lt u hu).ne]
    exact ht.thread u hu
  · intro c hc
    by_cases hcn : c = s.nextConn
    · exact .inl ⟨fd, by rw [hcn]; exact hpending⟩
    · rw [Function.update_of_ne hcn] at hc
      rcases ht.opened c hc with ⟨fd', h⟩ | h
      · cases hidle.symm.trans h
      · exact .inr h

/-- A worker is started for the connection. -/
theorem starting_tracks {fd : Int} {conn : Nat} {listener : Revents} {i : Slot}
    {workers : Workers} (ht : s.Tracks host t) (hpc : s.pc = .configuring fd conn listener) :
    State.Tracks host
      { s with
        pc := .accepting listener
        workers := workers
        threads := Function.update s.threads s.nextThread ⟨i, 0, .entering, conn, 0⟩
        nextThread := s.nextThread + 1 } t := by
  have hpending : s.pc.pending = some (fd, conn) := by rw [hpc]; rfl
  have hold : ∀ u, u < s.nextThread →
      (Function.update s.threads s.nextThread ⟨i, 0, .entering, conn, 0⟩ u) = s.threads u :=
    fun u hu => Function.update_of_ne (Nat.ne_of_lt hu) _ _
  refine ⟨ht.fresh, (fun _ _ h => by cases h), ?_, ?_⟩
  · intro u hu
    rcases Nat.lt_succ_iff_lt_or_eq.mp hu with hu | rfl
    · simp only [hold u hu]
      exact ht.thread u hu
    · simp only [Function.update_self]
      exact ht.pending fd conn hpending
  · intro c hc
    rcases ht.opened c hc with ⟨fd', h⟩ | ⟨u, hu, hconn⟩
    · cases hpending.symm.trans h
      exact .inr ⟨s.nextThread, Nat.lt_succ_self _, by simp⟩
    · exact .inr ⟨u, Nat.lt_succ_of_lt hu, by simp only [hold u hu, hconn]⟩

theorem MainMove.simulated {e : MainEvent} (h : MainMove transport s e s') (ht : s.Tracks host t)
    (hs : ConnsOk s) : Simulated transport host s t (.main e) s' := by
  cases h with
  | accepts hpc _ _ => exact accepting_simulated ht hs hpc
  | rejects hpc => exact rejecting_simulated ht hs hpc
  | acceptInterrupted _ => exact ht.silent rfl
  | starts hpc _ => exact State.Tracks.silent (starting_tracks ht hpc) rfl
  | joinsNext hpc =>
      refine State.Tracks.silent (ht.unmoved (joined_unmoved _ _ (by rw [hpc]; rfl))) ?_
      simp only [observe, hpc]
  | @joins _ _ after hpc _ =>
      refine State.Tracks.silent (ht.unmoved (joined_unmoved _ _ (by rw [hpc]; cases after <;> rfl))) ?_
      simp only [observe, hpc]
  | @finds _ after hpc | @passes _ after hpc =>
      refine State.Tracks.silent (ht.unmoved (.of_pc (by rw [hpc]; cases after <;> rfl))) ?_
      simp only [observe, hpc]
  | acceptedAll hpc houtcome =>
      refine State.Tracks.silent (ht.unmoved (.of_pc (by rw [hpc]; rfl))) ?_
      rcases houtcome with rfl | rfl <;> rfl
  | reaped hpc _ =>
      refine State.Tracks.silent (ht.unmoved (.of_pc (by rw [hpc, pending_reaping]))) ?_
      simp only [observe, hpc]
  | cannotStart hpc _ | publishes hpc =>
      refine State.Tracks.silent
        (ht.unmoved ⟨by rw [hpc]; rfl, rfl, rfl, fun _ => rfl, fun _ => rfl⟩) ?_
      simp only [observe, hpc]
  | polled hpc _ | checks hpc =>
      refine State.Tracks.silent (ht.unmoved (.of_pc (by rw [hpc]; split <;> rfl))) ?_
      simp only [observe, hpc]
  | listens hpc | cannotListen hpc | stops hpc _ | goesOn hpc _ | pollInterrupted hpc
  | pollFailed hpc | cannotConfigure hpc | closesListener hpc | skips hpc | joinedAll hpc
  | returns hpc =>
      refine State.Tracks.silent (ht.unmoved (.of_pc (by rw [hpc]; rfl))) ?_
      simp only [observe, hpc]

/-! ### The workers -/

theorem WorkerMove.simulated {u : ThreadId} {e : WorkerEvent}
    (h : WorkerMove transport host s u e s') (ht : s.Tracks host t) (hs : ConnsOk s)
    (hu : u < s.nextThread) : Simulated transport host s t (.worker u e) s' := by
  have hthread := ht.thread u hu
  cases h with
  | enters hstage =>
      rw [hstage] at hthread
      refine State.Tracks.silent (ht.advance_silent hs hu (advances_update (by rfl) _ _) ?_) rfl
      rw [show t (s.threads u).conn = _ from hthread]
      exact Session.tracks_start transport.config
  | serves hstage _ hstep =>
      rw [hstage] at hthread
      obtain ⟨x, hrun, hx⟩ := (Session.step_move hstep).simulated hthread
      refine ⟨_, ?_, ht.advance hs hu (advances_update (by rfl) _ _) hx⟩
      simp only [observe, hstage]
      exact StepSystem.family_run hrun
  | closes hstage _ =>
      rw [hstage] at hthread
      have hopened : (t (s.threads u).conn).status = .opened := hthread.opened
      have hrun : (requestConnection host).Run (t (s.threads u).conn) [.closes]
          ((t (s.threads u).conn).after .closes) := run_one hopened
      exact ⟨_, StepSystem.family_run hrun, ht.advance hs hu (advances_update (by rfl) _ _) rfl⟩
  | marks hstage | exits hstage =>
      rw [hstage] at hthread
      exact State.Tracks.silent (ht.advance_silent hs hu (advances_update (by rfl) _ _) hthread) rfl

/-! ### Every step -/

/-- **Every step of every thread is something the service may do.** -/
theorem Move.simulated (h : Move transport host s e s') (ht : s.Tracks host t) (hs : ConnsOk s) :
    Simulated transport host s t e s' := by
  cases h with
  | signal => exact State.Tracks.silent (ht.unmoved ⟨rfl, rfl, rfl, fun _ => rfl, fun _ => rfl⟩) rfl
  | main h => exact h.simulated ht hs
  | worker hu h => exact h.simulated ht hs hu

/-- The states of a server and of the service that go together. -/
structure Implements (transport : Transport) (host : Host) (s : State) (t : Connections) :
    Prop where
  valid : s.Valid transport host
  tracks : s.Tracks host t

theorem implements_start (stopRequested : Bool) :
    Implements transport host (.start stopRequested) fun _ => .fresh where
  valid := valid_start stopRequested
  tracks := ⟨fun _ _ => rfl, (fun _ _ h => by cases h), fun u hu => absurd hu (Nat.not_lt_zero u),
    fun _ h => (by cases h)⟩

theorem observe_simulation (transport : Transport) (host : Host) :
    StepSystem.Simulation (transport.server host) (requestService host)
      (fun s e _ => observe transport s e) (Implements transport host) where
  init := by
    rintro s ⟨stopRequested, rfl⟩
    exact ⟨fun _ => .fresh, fun _ => rfl, implements_start stopRequested⟩
  step s t e s' h hstep := by
    obtain ⟨t', hrun, htracks⟩ := (step_move hstep).simulated h.tracks h.valid.conns
    exact ⟨t', hrun, (step_effect h.valid.pc hstep).valid h.valid, htracks⟩

/-- A connection is open as long as it has an owner. -/
theorem State.Tracks.opened_iff (ht : s.Tracks host t) (c : Nat) :
    (t c).status = .opened ↔ ∃ p fd, s.Owns p fd c := by
  constructor
  · intro hc
    rcases ht.opened c hc with ⟨fd, hpending⟩ | ⟨u, hu, rfl⟩
    · exact ⟨.acceptLoop, fd, hpending⟩
    · have hthread := ht.thread u hu
      cases hstage : (s.threads u).stage with
      | entering =>
          exact ⟨.worker u, (s.workers (s.threads u).slot).clientFd, hu, by simp [State.held, hstage]⟩
      | serving session =>
          exact ⟨.worker u, (s.threads u).clientFd, hu, by simp [State.held, hstage]⟩
      | closed | marked | exited =>
          rw [hstage] at hthread
          rw [show (t (s.threads u).conn).status = .closed from hthread] at hc
          cases hc
  · rintro ⟨p, fd, howns⟩
    cases p with
    | acceptLoop =>
        rw [ht.pending fd c howns]
        rfl
    | worker u =>
        obtain ⟨hu, hheld⟩ := howns
        have hthread := ht.thread u hu
        rw [held_conn hheld] at hthread
        unfold State.held at hheld
        split at hheld
        · next hstage =>
            rw [hstage] at hthread
            rw [show t c = _ from hthread]
            rfl
        · next session hstage =>
            rw [hstage] at hthread
            exact hthread.opened
        · cases hheld

/-- **The threaded servers implement the request service.** What the outside sees of any run, in any
interleaving of the threads, is something the service may do. On every connection the requests that are
run in it are the first that have arrived, and what is sent is a front of their responses that lacks at
most some of the last. What a worker does among the others is what it does on its own: its session is one
of `Transport.worker`, with its accounts, and the run accounts for every byte it has read and sent. A
connection is open as long as the accept loop or a worker has it, and when the server has returned none
is. -/
theorem implements_threadedService {stopRequested : Bool} {as : List (Nat × Observation)}
    (h : (transport.server host).Trace (fun s e _ => observe transport s e)
      (.start stopRequested) as s) :
    ∃ t, (requestService host).Run (fun _ => .fresh) as t ∧
      (∀ c, (t c).Ok requestCodec (respond host) ∧
        (t c).received = receives (StepSystem.member c as) ∧
        (t c).ran = runs (StepSystem.member c as) ∧ (t c).sent = sends (StepSystem.member c as)) ∧
      (∀ u session, u < s.nextThread → (s.threads u).stage = .serving session →
        (transport.worker host).Reachable session ∧
        (session.pc.Accounted → Session.Balanced host session) ∧
        (t (s.threads u).conn).received = session.received ∧
        (t (s.threads u).conn).sent = session.sent) ∧
      (∀ c, (t c).status = .opened ↔ ∃ p fd, s.Owns p fd c) ∧
      (∀ result, s.pc = .finished result → ∀ c, (t c).status ≠ .opened) := by
  obtain ⟨t, hrun, hvalid, htracks⟩ :=
    (observe_simulation transport host).trace (implements_start stopRequested) h
  refine ⟨t, hrun, trace_ok hrun, ?_, htracks.opened_iff, ?_⟩
  · intro u session hu hstage
    have hsession := hvalid.sessions u session hu hstage
    have hthread := htracks.thread u hu
    rw [hstage] at hthread
    exact ⟨hsession, (Session.valid_of_reachable hsession).balanced, hthread.received, hthread.sent⟩
  · intro result hpc c hopened
    obtain ⟨p, fd, howns⟩ := (htracks.opened_iff c).mp hopened
    have hfree := hvalid.pc
    rw [hpc] at hfree
    have hquiet := hvalid.quiet (by rw [hpc]; rfl) hfree
    have hopen := (hvalid.custody.table_iff fd c).mpr ⟨p, howns⟩
    rw [hquiet.descriptors] at hopen
    cases hopen

/-- A run of a threaded server with its trace. -/
theorem server_traces (transport : Transport) (host : Host) (es : List Event)
    (test : List (Nat × Observation) → State → Bool)
    (h : (StepSystem.execTrace (step transport host) (fun s e _ => observe transport s e)
      (.start false) es).any (fun p => test p.1 p.2) = true) :
    ∃ as s, (transport.server host).Trace (fun s e _ => observe transport s e) (.start false) as s ∧
      test as s = true :=
  StepSystem.exists_trace h

/-- The first worker of a TCP server reads a `PWD` request in two pieces, runs it and sends half of
the response. -/
def firstWorker : List Event :=
  [listening, scan, arrival, scan, [.main (.configure true .fair), .worker 0 .enter],
    Session.halfAnswered.map fun e => .worker 0 (.serve e)].flatten

/-- The thread is in its loop, with this sent. -/
def Stage.hasSent (sent : Bytes) : Stage → Bool
  | .serving session => session.sent = sent
  | _ => false

theorem implements_threadedService_run : ∃ t : Connections,
    (requestService plainHost).Run (fun _ => .fresh)
      [(0, .opens), (0, .receives [0, 6, 0, 2]), (0, .receives [0, 0]), (0, .runs pwdRequest),
        (0, .sends [0, 1])] t ∧
    (t 0).ran = [pwdRequest] ∧ (t 0).sent = [0, 1] ∧ (t 0).status = .opened := by
  obtain ⟨as, s, htrace, hp⟩ := server_traces .tcp plainHost firstWorker
    (fun as s => as == [(0, .opens), (0, .receives [0, 6, 0, 2]), (0, .receives [0, 0]),
        (0, .runs pwdRequest), (0, .sends [0, 1])] &&
      decide (0 < s.nextThread) && (s.threads 0).conn == 0 && (s.threads 0).stage.hasSent [0, 1])
    (by decide +kernel)
  simp only [Bool.and_eq_true, decide_eq_true_eq, beq_iff_eq] at hp
  obtain ⟨⟨⟨rfl, hthread⟩, hconn⟩, hsent⟩ := hp
  obtain ⟨t, hrun, hok, hbytes, hopened, -⟩ := implements_threadedService htrace
  obtain ⟨-, -, hran, -⟩ := hok 0
  cases hstage : (s.threads 0).stage with
  | serving session =>
      rw [hstage] at hsent
      obtain ⟨-, -, -, hthis⟩ := hbytes 0 session hthread hstage
      rw [hconn] at hthis
      refine ⟨t, hrun, hran, hthis.trans (by simpa [Stage.hasSent] using hsent), ?_⟩
      exact (hopened 0).mpr ⟨.worker 0, (s.threads 0).clientFd, hthread, by
        simp [State.held, hstage, hconn]⟩
  | _ => rw [hstage] at hsent; cases hsent

end Server

end WireCommand.Threaded
