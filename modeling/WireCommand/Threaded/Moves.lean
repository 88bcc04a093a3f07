import WireCommand.Threaded.Server

/-!
# The moves of a threaded server

What a step can do, one constructor for each way through the code, with what the step has found out.
This is the only place where the step functions are taken apart: `MainMove` and `WorkerMove` say
which steps there are, and what else is known about a step is read off them.
-/

namespace WireCommand.Threaded.Server

open Foundation

variable {transport : Transport} {host : Host} {s s' : State}

/-- A thread has been joined, and its slot is released. -/
def State.joined (s : State) (i : Slot) (t : ThreadId) (pc : Pc) : State :=
  { s with
    pc := pc
    threads := Function.update s.threads t { s.threads t with joins := (s.threads t).joins + 1 }
    workers := Function.update s.workers i (s.workers i).released }

@[simp] theorem joined_stage (i : Slot) (t : ThreadId) (pc : Pc) (u : ThreadId) :
    ((s.joined i t pc).threads u).stage = (s.threads u).stage := by
  by_cases hu : u = t
  · subst hu
    simp [State.joined]
  · simp [State.joined, hu]

/-- `pthread_join` returns when the thread has ended. -/
theorem join_eq {i : Slot} {t : ThreadId} {pc : Pc} (h : s.join i t pc = some s') :
    (s.threads t).stage = .exited ∧ s' = s.joined i t pc := by
  unfold State.join at h
  split at h
  · next hstage => cases h; exact ⟨hstage, rfl⟩
  · cases h

/-- What `wc_tcp_start_worker` does to the table. -/
theorem startWorker_spec {workers workers' : Workers} {fd : Int} {t : ThreadId} {env : StartEnv}
    {result : Except Errno Slot} (h : startWorker workers fd t env = (result, workers')) :
    match result with
    | .ok i => (workers i).inUse = false ∧
        workers' = Function.update workers i ⟨t, fd, true, false⟩
    | .error _ => ∀ i, workers' i = workers i ∨
        ((workers i).inUse = false ∧ (workers' i).inUse = false) := by
  unfold startWorker at h
  split at h
  · cases h
    exact fun i => .inl rfl
  · next i hfind =>
      have hfree : (workers i).inUse = false := by
        simpa using List.find?_some hfind
      simp only at h
      split at h
      · cases h
        intro j
        by_cases hj : j = i
        · subst hj
          exact .inr ⟨hfree, by simp [Worker.released]⟩
        · exact .inl (Function.update_of_ne hj _ _)
      · cases h
        exact ⟨hfree, rfl⟩

/-! ## The main thread -/

/-- The moves of the main thread. -/
inductive MainMove (transport : Transport) (s : State) : MainEvent → State → Prop
  | listens (hpc : s.pc = .opening) :
      MainMove transport s (.listen (.ok ())) { s with pc := .loopTest }
  | cannotListen {errno : Errno} (hpc : s.pc = .opening) :
      MainMove transport s (.listen (.error errno)) { s with pc := .destroying (.error errno) }
  | stops (hpc : s.pc = .loopTest) (hstop : s.stopRequested = true) :
      MainMove transport s .tick { s with pc := .stopping (.ok ()) }
  | goesOn (hpc : s.pc = .loopTest) (hstop : s.stopRequested = false) :
      MainMove transport s .tick { s with pc := .reaping 0 .poll }
  | finds {next : Nat} {after : AfterReap} (hpc : s.pc = .reaping next after)
      (hnext : next < maxClients) (hbusy : (s.workers ⟨next, hnext⟩).inUse = true)
      (hfinished : (s.workers ⟨next, hnext⟩).finished = true) :
      MainMove transport s .tick
        { s with pc := .joining ⟨next, hnext⟩ (s.workers ⟨next, hnext⟩).thread after }
  | passes {next : Nat} {after : AfterReap} (hpc : s.pc = .reaping next after)
      (hnext : next < maxClients)
      (hskip : ((s.workers ⟨next, hnext⟩).inUse && (s.workers ⟨next, hnext⟩).finished) = false) :
      MainMove transport s .tick { s with pc := .reaping (next + 1) after }
  | reaped {next : Nat} {after : AfterReap} (hpc : s.pc = .reaping next after)
      (hnext : ¬ next < maxClients) : MainMove transport s .tick { s with pc := after.pc }
  | joins {i : Slot} {t : ThreadId} {after : AfterReap} (hpc : s.pc = .joining i t after)
      (hexited : (s.threads t).stage = .exited) :
      MainMove transport s .tick (s.joined i t (.reaping (i + 1) after))
  | pollInterrupted (hpc : s.pc = .polling) :
      MainMove transport s (.poll .interrupted) { s with pc := .loopTest }
  | pollFailed {errno : Errno} (hpc : s.pc = .polling) :
      MainMove transport s (.poll (.failed errno)) { s with pc := .stopping (.error errno) }
  | polled {listener : Revents} (hpc : s.pc = .polling)
      (hanswers : listener.answers ⟨true, false⟩ = true) :
      MainMove transport s (.poll (.returned listener))
        { s with pc := if listener.pollIn then .accepting listener else .checking listener }
  | accepts {listener : Revents} {fd : Int} (hpc : s.pc = .accepting listener) (hfd : 0 ≤ fd)
      (hnew : s.descriptors.table fd = none) :
      MainMove transport s (.accept (.accepted fd))
        { s with
          pc := transport.afterAccept fd s.nextConn listener
          descriptors := s.descriptors.acquire fd s.nextConn
          nextConn := s.nextConn + 1 }
  | acceptInterrupted {listener : Revents} (hpc : s.pc = .accepting listener) :
      MainMove transport s (.accept .interrupted) s
  | acceptedAll {listener : Revents} {outcome : AcceptOutcome} (hpc : s.pc = .accepting listener)
      (houtcome : outcome = .wouldBlock ∨ outcome = .failed) :
      MainMove transport s (.accept outcome) { s with pc := .checking listener }
  | starts {fd : Int} {conn : Nat} {listener : Revents} {env : StartEnv} {i : Slot}
      (hpc : s.pc = .configuring fd conn listener) (hfree : (s.workers i).inUse = false) :
      MainMove transport s (.configure true env)
        { s with
          pc := .accepting listener
          workers := Function.update s.workers i ⟨s.nextThread, fd, true, false⟩
          threads := Function.update s.threads s.nextThread ⟨i, 0, .entering, conn, 0⟩
          nextThread := s.nextThread + 1 }
  | cannotStart {fd : Int} {conn : Nat} {listener : Revents} {env : StartEnv} {workers : Workers}
      (hpc : s.pc = .configuring fd conn listener)
      (hworkers : ∀ i, workers i = s.workers i ∨
        ((s.workers i).inUse = false ∧ (workers i).inUse = false)) :
      MainMove transport s (.configure true env)
        { s with pc := .rejecting fd conn listener, workers := workers }
  | cannotConfigure {fd : Int} {conn : Nat} {listener : Revents} {env : StartEnv}
      (hpc : s.pc = .configuring fd conn listener) :
      MainMove transport s (.configure false env) { s with pc := .rejecting fd conn listener }
  | rejects {fd : Int} {conn : Nat} {listener : Revents} (hpc : s.pc = .rejecting fd conn listener) :
      MainMove transport s .tick
        { s with pc := .accepting listener, descriptors := s.descriptors.release .acceptLoop fd }
  | checks {listener : Revents} (hpc : s.pc = .checking listener) :
      MainMove transport s .tick
        { s with pc := if listener.broken then .stopping (.error .eio) else .loopTest }
  | publishes {result : Except Errno Unit} (hpc : s.pc = .stopping result) :
      MainMove transport s .tick { s with pc := .closingListener result, stopping := true }
  | closesListener {result closed unlinked : Except Errno Unit}
      (hpc : s.pc = .closingListener result) :
      MainMove transport s (.closeListener closed unlinked)
        { s with pc := .joiningAll 0 (transport.closeListener result closed unlinked) }
  | joinsNext {next : Nat} {result : Except Errno Unit} (hpc : s.pc = .joiningAll next result)
      (hnext : next < maxClients) (hbusy : (s.workers ⟨next, hnext⟩).inUse = true)
      (hexited : (s.threads (s.workers ⟨next, hnext⟩).thread).stage = .exited) :
      MainMove transport s .tick
        (s.joined ⟨next, hnext⟩ (s.workers ⟨next, hnext⟩).thread (.joiningAll (next + 1) result))
  | skips {next : Nat} {result : Except Errno Unit} (hpc : s.pc = .joiningAll next result)
      (hnext : next < maxClients) (hfree : (s.workers ⟨next, hnext⟩).inUse = false) :
      MainMove transport s .tick { s with pc := .joiningAll (next + 1) result }
  | joinedAll {next : Nat} {result : Except Errno Unit} (hpc : s.pc = .joiningAll next result)
      (hnext : ¬ next < maxClients) :
      MainMove transport s .tick { s with pc := .destroying result }
  | returns {result : Except Errno Unit} (hpc : s.pc = .destroying result) :
      MainMove transport s .tick { s with pc := .finished result }

theorem tick_move (h : s.tick = some s') : MainMove transport s .tick s' := by
  unfold State.tick at h
  split at h
  · next hpc =>
      cases h
      split
      · next hstop => exact .stops hpc hstop
      · next hstop => exact .goesOn hpc (by simpa using hstop)
  · next next after hpc =>
      split at h
      · next hnext =>
          simp only at h
          split at h
          · next hfound =>
              rw [Bool.and_eq_true] at hfound
              cases h
              exact .finds hpc hnext hfound.1 hfound.2
          · next hskip =>
              cases h
              exact .passes hpc hnext (by simpa using hskip)
      · next hnext => cases h; exact .reaped hpc hnext
  · next hpc =>
      obtain ⟨hexited, rfl⟩ := join_eq h
      exact .joins hpc hexited
  · next hpc => cases h; exact .rejects hpc
  · next hpc => cases h; exact .checks hpc
  · next hpc => cases h; exact .publishes hpc
  · next hpc =>
      split at h
      · next hnext =>
          split at h
          · next hbusy =>
              obtain ⟨hexited, rfl⟩ := join_eq h
              exact .joinsNext hpc hnext hbusy hexited
          · next hfree => cases h; exact .skips hpc hnext (by simpa using hfree)
      · next hnext => cases h; exact .joinedAll hpc hnext
  · next hpc => cases h; exact .returns hpc
  · cases h

/-- Every step of the main thread is one of the moves. -/
theorem mainStep_move {e : MainEvent} (h : mainStep transport s e = some s') :
    MainMove transport s e s' := by
  cases e with
  | listen opened =>
      simp only [mainStep] at h
      split at h
      · next hpc => cases h; exact .listens hpc
      · next hpc => cases h; exact .cannotListen hpc
      · cases h
  | tick => exact tick_move h
  | poll outcome =>
      simp only [mainStep] at h
      split at h
      · next hpc =>
          split at h
          · cases h; exact .pollInterrupted hpc
          · cases h; exact .pollFailed hpc
          · split at h
            · next hanswers => cases h; exact .polled hpc hanswers
            · cases h
      · cases h
  | accept outcome =>
      simp only [mainStep] at h
      split at h
      · next hpc =>
          cases outcome with
          | accepted fd =>
              simp only [State.accept] at h
              split at h
              · next hfd => cases h; exact .accepts hpc hfd.1 hfd.2
              · cases h
          | interrupted => cases h; exact .acceptInterrupted hpc
          | wouldBlock => cases h; exact .acceptedAll hpc (.inl rfl)
          | failed => cases h; exact .acceptedAll hpc (.inr rfl)
      · cases h
  | configure nonblockingOk env =>
      simp only [mainStep] at h
      split at h
      · next hpc =>
          cases h
          cases nonblockingOk with
          | false => exact .cannotConfigure hpc
          | true =>
              simp only [State.configure, if_true, transport.startWorker_eq]
              split
              · next hstart => exact .cannotStart hpc (startWorker_spec hstart)
              · next hstart =>
                  obtain ⟨hfree, rfl⟩ := startWorker_spec hstart
                  exact .starts hpc hfree
      · cases h
  | closeListener closed unlinked =>
      simp only [mainStep] at h
      split at h
      · next hpc => cases h; exact .closesListener hpc
      · cases h

/-! ## The workers -/

/-- The moves of a worker. -/
inductive WorkerMove (transport : Transport) (host : Host) (s : State) (t : ThreadId) :
    WorkerEvent → State → Prop
  | enters (hstage : (s.threads t).stage = .entering) :
      WorkerMove transport host s t .enter
        { s with
          threads := Function.update s.threads t
            { s.threads t with
              clientFd := (s.workers (s.threads t).slot).clientFd
              stage := .serving (.start transport.config) } }
  | serves {session session' : Session.State} {e : Session.Event}
      (hstage : (s.threads t).stage = .serving session) (hsees : seesFlag s.stopping e = true)
      (hstep : Session.step transport host session e = some session') :
      WorkerMove transport host s t (.serve e) (s.setStage t (.serving session'))
  | closes {session : Session.State} {exit : Session.Exit}
      (hstage : (s.threads t).stage = .serving session) (hleft : session.pc = .left exit) :
      WorkerMove transport host s t .close
        { s.setStage t .closed with
          descriptors := s.descriptors.release (.worker t) (s.threads t).clientFd }
  | marks (hstage : (s.threads t).stage = .closed) :
      WorkerMove transport host s t .markFinished
        { s.setStage t .marked with
          workers := Function.update s.workers (s.threads t).slot
            { s.workers (s.threads t).slot with finished := true } }
  | exits (hstage : (s.threads t).stage = .marked) :
      WorkerMove transport host s t .exit (s.setStage t .exited)

/-- Every step of a worker is one of the moves. -/
theorem workerStep_move {t : ThreadId} {e : WorkerEvent}
    (h : workerStep transport host s t e = some s') : WorkerMove transport host s t e s' := by
  cases e with
  | enter =>
      simp only [workerStep] at h
      split at h
      · next hstage => cases h; exact .enters hstage
      · cases h
  | serve e =>
      simp only [workerStep] at h
      split at h
      · next hstage =>
          split at h
          · next hsees =>
              obtain ⟨session', hstep, rfl⟩ := Option.map_eq_some_iff.mp h
              exact .serves hstage hsees hstep
          · cases h
      · cases h
  | close =>
      simp only [workerStep] at h
      split at h
      · next hstage =>
          split at h
          · next hleft => cases h; exact .closes hstage hleft
          · cases h
      · cases h
  | markFinished =>
      simp only [workerStep] at h
      split at h
      · next hstage => cases h; exact .marks hstage
      · cases h
  | exit =>
      simp only [workerStep] at h
      split at h
      · next hstage => cases h; exact .exits hstage
      · cases h

/-! ## Both -/

/-- The moves of the server: a signal, or a move of one of its threads. -/
inductive Move (transport : Transport) (host : Host) (s : State) : Event → State → Prop
  | signal : Move transport host s .signal { s with stopRequested := true }
  | main {e : MainEvent} {s' : State} (h : MainMove transport s e s') :
      Move transport host s (.main e) s'
  | worker {t : ThreadId} {e : WorkerEvent} {s' : State} (ht : t < s.nextThread)
      (h : WorkerMove transport host s t e s') : Move transport host s (.worker t e) s'

/-- Every step is one of the moves. -/
theorem step_move {e : Event} (h : step transport host s e = some s') :
    Move transport host s e s' := by
  cases e with
  | signal => cases h; exact .signal
  | main e => exact .main (mainStep_move h)
  | worker t e =>
      simp only [step] at h
      split at h
      · next ht => exact .worker ht (workerStep_move h)
      · cases h

end WireCommand.Threaded.Server
