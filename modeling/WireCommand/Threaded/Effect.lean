import WireCommand.Threaded.Moves

/-!
# What a step of a threaded server leaves behind

Most moves of the main thread only take it further, and inside its loop a worker touches nothing that
is shared. What is left is the *effect* of a step: on the table of workers, on the threads and on the
client descriptors. `Move.effect` reduces every move to one of eleven effects, so that an invariant
of these has to be checked against the effects, and not against the moves.
-/

namespace WireCommand.Threaded.Server

variable {transport : Transport} {host : Host} {s s' : State}

/-! ## What the main thread is in the middle of -/

/-- The descriptor in the hands of the accept loop, with its connection. -/
def Pc.pending : Pc → Option (Int × Nat)
  | .reaping _ (.configure clientFd conn _) => some (clientFd, conn)
  | .joining _ _ (.configure clientFd conn _) => some (clientFd, conn)
  | .configuring clientFd conn _ => some (clientFd, conn)
  | .rejecting clientFd conn _ => some (clientFd, conn)
  | _ => none

/-- What the program counter of the main thread promises about the slots. -/
def PcOk (workers : Workers) : Pc → Prop
  | .opening => ∀ i, (workers i).inUse = false
  | .joining i t _ => (workers i).inUse = true ∧ (workers i).thread = t
  | .joiningAll next _ => ∀ i : Slot, i.val < next → (workers i).inUse = false
  | .destroying _ => ∀ i, (workers i).inUse = false
  | .finished _ => ∀ i, (workers i).inUse = false
  | _ => True

/-! ## Effects -/

/-- The effect of a step on the workers and the descriptors. -/
inductive Effect (transport : Transport) (host : Host) (s : State) : State → Prop
  /-- The main thread goes on, or a signal arrives. -/
  | quiet (pc : Pc) (stopRequested stopping : Bool) (hpending : pc.pending = s.pc.pending)
      (hpc : PcOk s.workers pc) :
      Effect transport host s
        { s with pc := pc, stopRequested := stopRequested, stopping := stopping }
  | accepted (pc : Pc) (fd : Int) (hidle : s.pc.pending = none)
      (hpending : pc.pending = some (fd, s.nextConn)) (hfd : s.descriptors.table fd = none)
      (hpc : PcOk s.workers pc) :
      Effect transport host s
        { s with
          pc := pc
          descriptors := s.descriptors.acquire fd s.nextConn
          nextConn := s.nextConn + 1 }
  /-- `wc_tcp_start_worker` has taken a slot and given it back. -/
  | withdrawn (pc : Pc) (workers : Workers) (hpending : pc.pending = s.pc.pending)
      (hworkers : ∀ i, workers i = s.workers i ∨
        ((s.workers i).inUse = false ∧ (workers i).inUse = false))
      (hpc : PcOk workers pc) :
      Effect transport host s { s with pc := pc, workers := workers }
  | started (pc : Pc) (i : Slot) (fd : Int) (conn : Nat) (hidle : pc.pending = none)
      (hpending : s.pc.pending = some (fd, conn)) (hfree : (s.workers i).inUse = false)
      (hpc : ∀ workers, PcOk workers pc) :
      Effect transport host s
        { s with
          pc := pc
          workers := Function.update s.workers i ⟨s.nextThread, fd, true, false⟩
          threads := Function.update s.threads s.nextThread ⟨i, 0, .entering, conn, 0⟩
          nextThread := s.nextThread + 1 }
  | rejected (pc : Pc) (fd : Int) (conn : Nat) (hidle : pc.pending = none)
      (hpending : s.pc.pending = some (fd, conn)) (hpc : PcOk s.workers pc) :
      Effect transport host s
        { s with pc := pc, descriptors := s.descriptors.release .acceptLoop fd }
  | joined (pc : Pc) (i : Slot) (hpending : pc.pending = s.pc.pending)
      (hbusy : (s.workers i).inUse = true)
      (hexited : (s.threads (s.workers i).thread).stage = .exited)
      (hpc : PcOk (Function.update s.workers i (s.workers i).released) pc) :
      Effect transport host s (s.joined i (s.workers i).thread pc)
  | entered (t : ThreadId) (ht : t < s.nextThread) (hstage : (s.threads t).stage = .entering) :
      Effect transport host s
        { s with
          threads := Function.update s.threads t
            { s.threads t with
              clientFd := (s.workers (s.threads t).slot).clientFd
              stage := .serving (.start transport.config) } }
  | served (t : ThreadId) (ht : t < s.nextThread) (session session' : Session.State)
      (e : Session.Event) (hstage : (s.threads t).stage = .serving session)
      (hstep : Session.step transport host session e = some session') :
      Effect transport host s (s.setStage t (.serving session'))
  | closed (t : ThreadId) (ht : t < s.nextThread) (session : Session.State)
      (hstage : (s.threads t).stage = .serving session) :
      Effect transport host s
        { s.setStage t .closed with
          descriptors := s.descriptors.release (.worker t) (s.threads t).clientFd }
  | marked (t : ThreadId) (ht : t < s.nextThread) (hstage : (s.threads t).stage = .closed) :
      Effect transport host s
        { s.setStage t .marked with
          workers := Function.update s.workers (s.threads t).slot
            { s.workers (s.threads t).slot with finished := true } }
  | exited (t : ThreadId) (ht : t < s.nextThread) (hstage : (s.threads t).stage = .marked) :
      Effect transport host s (s.setStage t .exited)

/-- A step of the main thread that only moves it. -/
theorem Effect.moves {pc : Pc} (hpending : pc.pending = s.pc.pending) (hpc : PcOk s.workers pc) :
    Effect transport host s { s with pc := pc } :=
  .quiet pc s.stopRequested s.stopping hpending hpc

/-! ## Every step has one -/

theorem pending_reaping (next : Nat) (after : AfterReap) :
    (Pc.reaping next after).pending = after.pc.pending := by
  cases after <;> rfl

theorem pending_joining (i : Slot) (t : ThreadId) (after : AfterReap) :
    (Pc.joining i t after).pending = after.pc.pending := by
  cases after <;> rfl

theorem pcOk_afterReap (workers : Workers) (after : AfterReap) : PcOk workers after.pc := by
  cases after <;> trivial

/-- One more slot is free in `wc_tcp_join_all`. -/
theorem pcOk_joiningAll_succ {workers : Workers} {next : Nat} {result : Except Errno Unit}
    (hnext : next < maxClients) (hfree : (workers ⟨next, hnext⟩).inUse = false)
    (h : ∀ i : Slot, i.val < next → (workers i).inUse = false) :
    PcOk workers (.joiningAll (next + 1) result) := by
  intro i hi
  rcases Nat.lt_succ_iff_lt_or_eq.mp hi with hlt | rfl
  · exact h i hlt
  · exact hfree

/-- The effect of the main thread. -/
theorem MainMove.effect {e : MainEvent} (h : MainMove transport s e s') (hok : PcOk s.workers s.pc) :
    Effect transport host s s' := by
  cases h with
  | listens hpc | stops hpc _ | goesOn hpc _ | pollInterrupted hpc | pollFailed hpc =>
      exact .moves (by rw [hpc]; rfl) trivial
  | cannotListen hpc =>
      rw [hpc] at hok
      exact .moves (by rw [hpc]; rfl) hok
  | finds hpc hnext hbusy _ =>
      -- the slot of the thread that is going to be joined
      exact .moves (by rw [hpc, pending_joining, pending_reaping]) ⟨hbusy, rfl⟩
  | passes hpc _ _ => exact .moves (by rw [hpc, pending_reaping, pending_reaping]) trivial
  | @reaped next after hpc _ =>
      exact .moves (by rw [hpc, pending_reaping]) (pcOk_afterReap _ after)
  | @joins i t after hpc hexited =>
      rw [hpc] at hok
      obtain ⟨hbusy, rfl⟩ := hok
      exact .joined _ i (by rw [hpc, pending_joining, pending_reaping]) hbusy hexited trivial
  | @polled listener hpc _ =>
      apply Effect.moves
      · rw [hpc]; split <;> rfl
      · split <;> trivial
  | @accepts listener fd hpc _ hnew =>
      refine .accepted _ fd (by rw [hpc]; rfl) ?_ hnew ?_
      · cases transport <;> rfl
      · cases transport <;> trivial
  | acceptInterrupted _ => exact .moves rfl hok
  | acceptedAll hpc _ => exact .moves (by rw [hpc]; rfl) trivial
  | @starts fd conn listener env i hpc hfree =>
      exact .started _ i fd conn rfl (by rw [hpc]; rfl) hfree fun _ => trivial
  | cannotStart hpc hworkers => exact .withdrawn _ _ (by rw [hpc]; rfl) hworkers trivial
  | cannotConfigure hpc => exact .moves (by rw [hpc]; rfl) trivial
  | @rejects fd conn listener hpc => exact .rejected _ fd conn rfl (by rw [hpc]; rfl) trivial
  | checks hpc =>
      apply Effect.moves
      · rw [hpc]; split <;> rfl
      · split <;> trivial
  | publishes hpc => exact .quiet _ s.stopRequested true (by rw [hpc]; rfl) trivial
  | closesListener hpc =>
      exact .moves (by rw [hpc]; rfl) fun i hi => absurd hi (Nat.not_lt_zero _)
  | @joinsNext next result hpc hnext hbusy hexited =>
      rw [hpc] at hok
      refine .joined _ ⟨next, hnext⟩ (by rw [hpc]; rfl) hbusy hexited ?_
      refine pcOk_joiningAll_succ hnext (by rw [Function.update_self]; rfl) ?_
      intro i hi
      rw [Function.update_of_ne (Fin.ne_of_val_ne (Nat.ne_of_lt hi))]
      exact hok i hi
  | skips hpc hnext hfree =>
      rw [hpc] at hok
      exact .moves (by rw [hpc]; rfl) (pcOk_joiningAll_succ hnext hfree hok)
  | joinedAll hpc hnext =>
      rw [hpc] at hok
      refine .moves (by rw [hpc]; rfl) ?_
      -- the scan has passed every slot
      intro i
      exact hok i (Nat.lt_of_lt_of_le i.isLt (Nat.not_lt.mp hnext))
  | returns hpc =>
      rw [hpc] at hok
      exact .moves (by rw [hpc]; rfl) hok

/-- The effect of a worker. -/
theorem WorkerMove.effect {t : ThreadId} {e : WorkerEvent} (ht : t < s.nextThread)
    (h : WorkerMove transport host s t e s') : Effect transport host s s' := by
  cases h with
  | enters hstage => exact .entered t ht hstage
  | serves hstage _ hstep => exact .served t ht _ _ _ hstage hstep
  | closes hstage _ => exact .closed t ht _ hstage
  | marks hstage => exact .marked t ht hstage
  | exits hstage => exact .exited t ht hstage

/-- **Every step of the server has one of these effects.** -/
theorem Move.effect {e : Event} (h : Move transport host s e s') (hok : PcOk s.workers s.pc) :
    Effect transport host s s' := by
  cases h with
  | signal => exact .quiet s.pc true s.stopping rfl hok
  | main hmain => exact hmain.effect hok
  | worker ht hworker => exact hworker.effect ht

theorem step_effect {e : Event} (hok : PcOk s.workers s.pc)
    (h : step transport host s e = some s') : Effect transport host s s' :=
  (step_move h).effect hok

end WireCommand.Threaded.Server
