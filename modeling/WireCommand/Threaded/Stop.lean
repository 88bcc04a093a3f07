import Mathlib.Algebra.Order.BigOperators.Group.Finset
import WireCommand.Foundation.Fairness
import WireCommand.Foundation.Measure
import WireCommand.Threaded.Lifecycle

/-!
# The threaded servers stop

SIGINT and SIGTERM set a flag. The main thread reads it at the head of its loop, publishes `stopping`
under the mutex, closes the listener and joins the workers; a worker leaves its loop when it sees
`stopping`. All their calls of `poll` have a timeout, so none of them waits for a client. That the
server then returns is three facts about every run behind the signal:

* the main thread has a bounded number of steps left, but for the connections it accepts on the way
  (`Pc.distance`);
* once `stopping` is published, all the workers together have a bounded number of steps left
  (`State.labour`);
* until the server has returned, the main thread can move, or it is in a `pthread_join` and the thread
  it waits for can move; and before `stopping` is published it waits only for a thread that has marked
  itself finished.
-/

namespace WireCommand.Threaded

open Foundation

namespace Session

/-- How many steps a worker is away from leaving its loop once the server is stopping. -/
def Pc.distance : Pc → Nat
  | .left _ => 0
  | .loopTest => 1
  | .checking _ => 2
  | .writing _ => 3
  | .reading _ => 4
  | .polling _ => 5
  | .processing => 6

theorem distance_afterRead (revents : Revents) : (afterRead revents).distance ≤ 3 := by
  unfold afterRead
  split <;> simp [Pc.distance]

theorem distance_continueWith (next : Pc) (result : Option Exit × State) :
    (continueWith next result).pc.distance ≤ next.distance := by
  obtain ⟨exit, s⟩ := result
  cases exit with
  | none => exact le_refl _
  | some exit => exact Nat.zero_le _

variable {transport : Transport} {host : Host} {s s' : State} {e : Event}

/-- **Every step of a worker brings it closer to its end**, if it sees that the server is stopping
when it looks. -/
theorem Move.distance (h : Move transport host s e s') (hsees : ∀ b, e = .stopTest b → b = true) :
    s'.pc.distance < s.pc.distance := by
  cases h with
  | @stopTest stopping hpc =>
      obtain rfl := hsees stopping rfl
      rw [hpc]
      exact Nat.zero_lt_one
  | refused hpc _ _ | processed hpc _ _ | undrained hpc _ | pollAgain hpc _ | pollFailed hpc =>
      rw [hpc]
      simp [Pc.distance]
  | @ready events revents hpc _ =>
      rw [hpc]
      have hafter := distance_afterRead revents
      simp only
      split
      · simp [Pc.distance]
      · simp only [Pc.distance] at hafter ⊢
        omega
  | @read revents outcome reallocOk result hpc _ =>
      have hle := distance_continueWith (afterRead revents) result
      have hafter := distance_afterRead revents
      rw [hpc]
      simp only [Pc.distance] at hafter hle ⊢
      omega
  | @send revents outcome result hpc _ =>
      have hle := distance_continueWith (.checking revents) result
      rw [hpc]
      simp only [Pc.distance] at hle ⊢
      omega
  | checked hpc =>
      rw [hpc]
      unfold afterChecks
      split
      · simp [Pc.distance]
      · split <;> simp [Pc.distance]

/-- **A worker in its loop can always move**: no call of it waits for the peer. -/
theorem moves (transport : Transport) (host : Host) (stopping : Bool) (hloop : s.pc.InLoop) :
    ∃ e s', Server.seesFlag stopping e = true ∧ step transport host s e = some s' := by
  cases hpc : s.pc with
  | loopTest => exact ⟨.stopTest stopping, _, by simp [Server.seesFlag],
      by simp only [step, hpc]; rfl⟩
  | processing =>
      refine ⟨.process .fair, ?_⟩
      simp only [step, hpc]
      split
      · split <;> exact ⟨_, rfl, rfl⟩
      · exact ⟨_, rfl, rfl⟩
  | polling events => exact ⟨.poll .timeout, _, rfl, by simp only [step, hpc]; rfl⟩
  | reading revents =>
      refine ⟨.read .wouldBlock true, ?_⟩
      simp only [step, hpc, transport.readClient_eq, readClient]
      split <;> exact ⟨_, rfl, rfl⟩
  | writing revents =>
      exact ⟨.send .wouldBlock, _, rfl, by simp only [step, hpc, transport.writeClient_eq]; rfl⟩
  | checking revents => exact ⟨.tick, _, rfl, by simp only [step, hpc]; rfl⟩
  | left exit =>
      rw [hpc] at hloop
      exact hloop.elim

end Session

namespace Server

variable {transport : Transport} {host : Host} {s s' : State} {e : Event}

/-! ## The main thread -/

/-- A step of the main thread. -/
def Event.isMain : Event → Bool
  | .main _ => true
  | _ => false

/-- A step of a worker. -/
def Event.isWorker : Event → Bool
  | .worker _ _ => true
  | _ => false

/-- The accept loop goes round again: a connection has arrived, or the call was interrupted. -/
def Event.admits : Event → Bool
  | .main (.accept (.accepted _)) => true
  | .main (.accept .interrupted) => true
  | _ => false

/-- How many steps what follows `wc_tcp_reap_finished` is away from the end. -/
def AfterReap.distance : AfterReap → Nat
  | .poll => 72
  | .configure _ _ _ => 73

/-- How many steps the main thread is away from the end once it has been told to stop, if it accepts
no more connections. -/
def Pc.distance : Pc → Nat
  | .finished _ => 0
  | .destroying _ => 1
  | .joiningAll next _ => 2 + (maxClients - next)
  | .closingListener _ => 67
  | .stopping _ => 68
  | .loopTest => 69
  | .opening => 70
  | .checking _ => 70
  | .accepting _ => 71
  | .polling => 72
  | .rejecting _ _ _ => 72
  | .configuring _ _ _ => 73
  | .joining i _ after => after.distance + 2 * (maxClients - i)
  | .reaping next after => after.distance + 1 + 2 * (maxClients - next)

theorem distance_afterReap (after : AfterReap) : after.pc.distance = after.distance := by
  cases after <;> rfl

theorem distance_le (pc : Pc) : pc.distance ≤ 202 := by
  have hafter : ∀ after : AfterReap, after.distance ≤ 73 := by
    intro after
    cases after <;> simp [AfterReap.distance]
  cases pc with
  | joining i _ after | reaping i after =>
      have := hafter after
      simp only [Pc.distance, maxClients]
      omega
  | joiningAll next _ => simp only [Pc.distance, maxClients]; omega
  | _ => simp [Pc.distance]

/-- **The main thread comes closer to its end with every step**, but for the connections it accepts on
the way. -/
theorem MainMove.distance {e : MainEvent} (h : MainMove transport s e s')
    (hstop : s.stopRequested = true) :
    s'.pc.distance + 1 ≤ s.pc.distance + if (Event.main e).admits then 132 else 0 := by
  cases h with
  | goesOn _ hgoes =>
      rw [hstop] at hgoes
      cases hgoes
  | finds hpc hnext | passes hpc hnext =>
      rw [hpc]
      simp only [Pc.distance, Event.admits]
      omega
  | @reaped next after hpc _ =>
      rw [hpc]
      have hafter := distance_afterReap after
      show after.pc.distance + 1 ≤ after.distance + 1 + _ + _
      omega
  | @joins i _ _ hpc _ =>
      rw [hpc]
      have := i.isLt
      simp only [State.joined, Pc.distance, Event.admits]
      omega
  | polled hpc _ | checks hpc =>
      rw [hpc]
      simp only
      split <;> simp [Pc.distance, Event.admits]
  | @accepts listener fd hpc _ _ =>
      rw [hpc]
      have hle := distance_le (transport.afterAccept fd s.nextConn listener)
      show (transport.afterAccept fd s.nextConn listener).distance + 1 ≤ 71 + 132
      omega
  | acceptInterrupted hpc => simp [Event.admits]
  | acceptedAll hpc houtcome =>
      rw [hpc]
      rcases houtcome with rfl | rfl <;> simp [Pc.distance, Event.admits]
  | joinsNext hpc hnext | skips hpc hnext =>
      rw [hpc]
      simp only [State.joined, Pc.distance, Event.admits]
      omega
  | joinedAll hpc hnext =>
      rw [hpc]
      simp only [Pc.distance, Event.admits]
      omega
  | closesListener hpc =>
      rw [hpc]
      simp [Pc.distance, Event.admits, maxClients]
  | listens hpc | cannotListen hpc | stops hpc _ | pollInterrupted hpc | pollFailed hpc
  | starts hpc _ | cannotStart hpc _ | cannotConfigure hpc | rejects hpc | publishes hpc
  | returns hpc =>
      rw [hpc]
      simp [Pc.distance, Event.admits]

/-! ## The workers -/

/-- How many steps a worker is away from its end once the server is stopping. -/
def Stage.distance : Stage → Nat
  | .entering => 5
  | .serving session => 3 + session.pc.distance
  | .closed => 2
  | .marked => 1
  | .exited => 0

theorem Stage.distance_le (stage : Stage) : stage.distance ≤ 9 := by
  cases stage with
  | serving session =>
      cases hpc : session.pc <;> simp [Stage.distance, Session.Pc.distance, hpc]
  | _ => simp [Stage.distance]

/-- What is left to do for all the workers once the server is stopping. -/
def State.labour (s : State) : Nat :=
  ∑ t ∈ Finset.range s.nextThread, (s.threads t).stage.distance

/-- What a step of a worker leaves alone. -/
structure OwnStep (t : ThreadId) (s s' : State) : Prop where
  pc : s'.pc = s.pc
  stopRequested : s'.stopRequested = s.stopRequested
  stopping : s'.stopping = s.stopping
  nextThread : s'.nextThread = s.nextThread
  others : ∀ u, u ≠ t → s'.threads u = s.threads u

theorem WorkerMove.own {t : ThreadId} {e : WorkerEvent} (h : WorkerMove transport host s t e s') :
    OwnStep t s s' := by
  have hothers : ∀ {thread : Thread} u, u ≠ t → Function.update s.threads t thread u = s.threads u :=
    fun u hu => Function.update_of_ne hu _ _
  cases h <;> exact ⟨rfl, rfl, rfl, rfl, hothers⟩

/-- **A worker comes closer to its end with every step** once the server is stopping. -/
theorem WorkerMove.distance {t : ThreadId} {e : WorkerEvent}
    (h : WorkerMove transport host s t e s') (hstop : s.stopping = true) :
    (s'.threads t).stage.distance < (s.threads t).stage.distance := by
  cases h with
  | enters hstage =>
      rw [hstage]
      simp [Stage.distance, Session.State.start, Session.Pc.distance]
  | serves hstage hsees hstep =>
      have hlt := (Session.step_move hstep).distance fun b hb => by
        subst hb
        simpa [seesFlag, hstop] using hsees
      rw [hstage]
      simpa [State.setStage, Stage.distance] using hlt
  | closes hstage _ =>
      rw [hstage]
      simp only [State.setStage, Function.update_self, Stage.distance]
      omega
  | marks hstage | exits hstage =>
      rw [hstage]
      simp [State.setStage, Stage.distance]

theorem WorkerMove.labour {t : ThreadId} {e : WorkerEvent} (h : WorkerMove transport host s t e s')
    (ht : t < s.nextThread) (hstop : s.stopping = true) : s'.labour < s.labour := by
  unfold State.labour
  rw [h.own.nextThread]
  refine Finset.sum_lt_sum (fun u _ => ?_) ⟨t, Finset.mem_range.mpr ht, h.distance hstop⟩
  by_cases hu : u = t
  · exact hu ▸ (h.distance hstop).le
  · rw [h.own.others u hu]

/-- At most 64 workers have not ended. -/
theorem SlotsOk.labour_le (hs : SlotsOk s) : s.labour ≤ 9 * maxClients := by
  have hunjoined : ∑ t ∈ s.unjoined, (s.threads t).stage.distance = s.labour := by
    refine Finset.sum_filter_of_ne fun t ht hne => ?_
    rcases hs.joined t (Finset.mem_range.mp ht) with hjoins | ⟨-, hexited⟩
    · exact hjoins
    · rw [hexited] at hne
      exact absurd rfl hne
  have hle := Finset.sum_le_card_nsmul s.unjoined (fun t => (s.threads t).stage.distance) 9
    fun t _ => (s.threads t).stage.distance_le
  have hcard := hs.card_unjoined
  rw [hunjoined, Nat.nsmul_eq_mul] at hle
  omega

/-! ## Behind the publication -/

/-- Behind `wc_tcp_request_stop`, where no worker is started any more. -/
def Pc.Closing : Pc → Prop
  | .closingListener _ => True
  | .joiningAll _ _ => True
  | .destroying _ => True
  | .finished _ => True
  | _ => False

/-- Behind `wc_tcp_request_stop` and before the end. -/
def Pc.Stopping : Pc → Prop
  | .closingListener _ => True
  | .joiningAll _ _ => True
  | _ => False

/-- The threads keep their stages. -/
structure SameStages (s s' : State) : Prop where
  nextThread : s'.nextThread = s.nextThread
  stage : ∀ u, (s'.threads u).stage = (s.threads u).stage

theorem SameStages.labour (h : SameStages s s') : s'.labour = s.labour := by
  unfold State.labour
  rw [h.nextThread]
  exact Finset.sum_congr rfl fun u _ => by rw [h.stage]

/-- Behind the publication the main thread stays there, and starts nothing. -/
theorem MainMove.closing {e : MainEvent} (h : MainMove transport s e s') (hpc : s.pc.Closing) :
    s'.pc.Closing ∧ SameStages s s' := by
  cases h with
  | closesListener | skips | joinedAll | returns => exact ⟨trivial, rfl, fun _ => rfl⟩
  | joinsNext => exact ⟨trivial, rfl, fun u => joined_stage _ _ _ u⟩
  | listens h | cannotListen h | stops h | goesOn h | finds h | passes h | reaped h | joins h
  | pollInterrupted h | pollFailed h | polled h | accepts h | acceptInterrupted h | acceptedAll h
  | starts h | cannotStart h | cannotConfigure h | rejects h | checks h | publishes h =>
      rw [h] at hpc
      exact hpc.elim

/-- `stopping` is published by `wc_tcp_request_stop` alone. -/
theorem MainMove.publishes_stopping {e : MainEvent} (h : MainMove transport s e s') :
    s'.stopping = s.stopping ∨ (s'.stopping = true ∧ s'.pc.Closing) := by
  cases h with
  | publishes => exact .inr ⟨rfl, trivial⟩
  | _ => exact .inl rfl

theorem MainMove.stopRequested_eq {e : MainEvent} (h : MainMove transport s e s') :
    s'.stopRequested = s.stopRequested := by
  cases h <;> rfl

/-- The main thread has published that the server is stopping, and goes on to its end. -/
def Heeded (s : State) : Prop := s.stopping = true → s.pc.Closing

theorem Move.heeded (h : Move transport host s e s') (hs : Heeded s) : Heeded s' := by
  intro hstop
  cases h with
  | signal => exact hs hstop
  | main h =>
      rcases h.publishes_stopping with hsame | ⟨-, hclosing⟩
      · exact (h.closing (hs (hsame ▸ hstop))).1
      · exact hclosing
  | worker _ h =>
      rw [h.own.pc]
      exact hs (h.own.stopping ▸ hstop)

/-- The server is winding up: `stopping` is published. -/
structure Winding (s : State) : Prop where
  stopping : s.stopping = true
  closing : s.pc.Closing

/-- **Once `stopping` is published the workers come to their ends.** -/
theorem Move.labour (h : Move transport host s e s') (hs : Winding s) :
    Winding s' ∧ s'.labour + (if e.isWorker then 1 else 0) ≤ s.labour := by
  cases h with
  | signal => exact ⟨⟨hs.stopping, hs.closing⟩, le_refl _⟩
  | main h =>
      obtain ⟨hclosing, hstages⟩ := h.closing hs.closing
      refine ⟨⟨?_, hclosing⟩, hstages.labour.le⟩
      rcases h.publishes_stopping with hsame | ⟨htrue, -⟩
      · exact hsame.trans hs.stopping
      · exact htrue
  | worker ht h =>
      exact ⟨⟨h.own.stopping.trans hs.stopping, by rw [h.own.pc]; exact hs.closing⟩,
        h.labour ht hs.stopping⟩

/-- **Once it is told to stop the main thread comes to its end.** -/
theorem Move.distance (h : Move transport host s e s') (hstop : s.stopRequested = true) :
    s'.stopRequested = true ∧ s'.pc.distance + (if e.isMain then 1 else 0) ≤
      s.pc.distance + (if e.admits then 132 else 0) := by
  cases h with
  | signal => exact ⟨rfl, le_refl _⟩
  | main h => exact ⟨h.stopRequested_eq.trans hstop, h.distance hstop⟩
  | worker _ h =>
      rw [h.own.pc]
      exact ⟨h.own.stopRequested.trans hstop, Nat.le_add_right _ _⟩

/-! ## The marks -/

/-- The worker has marked its slot finished, and has no more to do than to end. -/
def Stage.Marked (stage : Stage) : Prop := stage = .marked ∨ stage = .exited

/-- A slot is marked finished by its thread only, and `wc_tcp_reap_finished` joins the threads of
marked slots only. -/
structure MarksOk (s : State) : Prop where
  marked : ∀ i, (s.workers i).inUse = true → (s.workers i).finished = true →
    (s.threads (s.workers i).thread).stage.Marked
  joining : ∀ i t after, s.pc = .joining i t after → (s.workers i).finished = true

/-- The main thread's own moves, with the slots and the stages as they are. -/
theorem MarksOk.of_pc (hs : MarksOk s) (hworkers : s'.workers = s.workers)
    (hthreads : s'.threads = s.threads) (hpc : ∀ i t after, s'.pc ≠ .joining i t after) :
    MarksOk s' where
  marked := by
    rw [hworkers, hthreads]
    exact hs.marked
  joining i t after h := absurd h (hpc i t after)

theorem MarksOk.joined (hs : MarksOk s) (i : Slot) (t : ThreadId) {pc : Pc}
    (hpc : ∀ i t after, pc ≠ .joining i t after) : MarksOk (s.joined i t pc) where
  marked := by
    intro j hbusy hfinished
    rw [joined_stage]
    by_cases hji : j = i
    · subst hji
      simp [State.joined, Worker.released] at hbusy
    · simp only [State.joined, Function.update_of_ne hji] at hbusy hfinished ⊢
      exact hs.marked j hbusy hfinished
  joining j u after h := absurd h (hpc j u after)

theorem MainMove.marks {e : MainEvent} (h : MainMove transport s e s') (hslots : SlotsOk s)
    (hs : MarksOk s) : MarksOk s' := by
  cases h with
  | @finds next after hpc hnext _ hfinished =>
      refine ⟨hs.marked, ?_⟩
      rintro i t after' ⟨⟩
      exact hfinished
  | @starts fd conn listener env j hpc hfree =>
      refine ⟨?_, fun _ _ _ h => by cases h⟩
      intro i hbusy hfinished
      by_cases hij : i = j
      · subst hij
        simp at hfinished
      · simp only [Function.update_of_ne hij] at hbusy hfinished ⊢
        rw [Function.update_of_ne (hslots.busy i hbusy).1.ne]
        exact hs.marked i hbusy hfinished
  | @cannotStart fd conn listener env workers hpc hworkers =>
      refine ⟨?_, fun _ _ _ h => by cases h⟩
      intro i hbusy hfinished
      rcases hworkers i with heq | ⟨-, hfree⟩
      · simp only [heq] at hbusy hfinished ⊢
        exact hs.marked i hbusy hfinished
      · rw [show (workers i).inUse = true from hbusy] at hfree
        cases hfree
  | joins | joinsNext => exact hs.joined _ _ fun _ _ _ h => by cases h
  | @reaped _ after => exact hs.of_pc rfl rfl fun _ _ _ h => by cases after <;> cases h
  | polled | checks => exact hs.of_pc rfl rfl fun _ _ _ h => by dsimp only at h; split at h <;> cases h
  | accepts => exact hs.of_pc rfl rfl fun _ _ _ h => by cases transport <;> cases h
  | acceptInterrupted => exact hs
  | _ => exact hs.of_pc rfl rfl fun _ _ _ h => by cases h

/-- The next step of a worker that has marked its slot is its last. -/
theorem WorkerMove.ends {t : ThreadId} {e : WorkerEvent} (h : WorkerMove transport host s t e s')
    (ht : (s.threads t).stage.Marked) : (s'.threads t).stage = .exited := by
  cases h with
  | exits => simp [State.setStage]
  | enters hstage | serves hstage | closes hstage | marks hstage =>
      rw [hstage] at ht
      rcases ht with h | h <;> cases h

theorem WorkerMove.marked {t u : ThreadId} {e : WorkerEvent}
    (h : WorkerMove transport host s t e s') (hu : (s.threads u).stage.Marked) :
    (s'.threads u).stage.Marked := by
  by_cases hut : u = t
  · subst hut
    exact .inr (h.ends hu)
  · rw [h.own.others u hut]
    exact hu

/-- A worker writes `finished` of its own slot only, and then has no more to do than to end. -/
theorem WorkerMove.workers_eq {t : ThreadId} {e : WorkerEvent}
    (h : WorkerMove transport host s t e s') (i : Slot) :
    s'.workers i = s.workers i ∨
      (i = (s.threads t).slot ∧ (s.threads t).stage = .closed ∧ (s'.threads t).stage = .marked ∧
        s'.workers i = { s.workers i with finished := true }) := by
  cases h with
  | marks hstage =>
      by_cases hi : i = (s.threads t).slot
      · subst hi
        exact .inr ⟨rfl, hstage, by simp [State.setStage], by simp⟩
      · exact .inl (by simp [hi])
  | _ => exact .inl rfl

theorem WorkerMove.keeps_marks {t : ThreadId} {e : WorkerEvent}
    (h : WorkerMove transport host s t e s') (ht : t < s.nextThread) (hslots : SlotsOk s)
    (hs : MarksOk s) : MarksOk s' where
  marked := by
    intro i hbusy hfinished
    rcases h.workers_eq i with heq | ⟨rfl, hclosed, hmarked, heq⟩
    · rw [heq] at hbusy hfinished ⊢
      exact h.marked (hs.marked i hbusy hfinished)
    · have hthread := (hslots.running ht (by rw [hclosed]; exact fun h => by cases h)).2.2
      rw [heq]
      simp only [hthread]
      exact .inl hmarked
  joining := by
    intro i u after hpc
    rw [h.own.pc] at hpc
    have hfinished := hs.joining i u after hpc
    rcases h.workers_eq i with heq | ⟨-, -, -, heq⟩ <;> simp [heq, hfinished]

theorem Move.marks (h : Move transport host s e s') (hslots : SlotsOk s) (hs : MarksOk s) :
    MarksOk s' := by
  cases h with
  | signal => exact ⟨hs.marked, hs.joining⟩
  | main h => exact h.marks hslots hs
  | worker ht h => exact h.keeps_marks ht hslots hs

/-! ## Progress -/

/-- The thread that the main thread is waiting for in `pthread_join`, if it has not ended. -/
def State.awaits (s : State) : Option ThreadId :=
  match s.pc with
  | .joining _ t _ => some t
  | .joiningAll next _ =>
      if h : next < maxClients then
        if (s.workers ⟨next, h⟩).inUse then some (s.workers ⟨next, h⟩).thread else none
      else none
  | _ => none

/-- A worker that has not ended can move. -/
theorem worker_moves (transport : Transport) (host : Host) {t : ThreadId} (ht : t < s.nextThread)
    (hstage : (s.threads t).stage ≠ .exited) :
    ∃ e s', step transport host s (.worker t e) = some s' := by
  simp only [step, if_pos ht]
  cases hs : (s.threads t).stage with
  | entering => exact ⟨.enter, _, by simp only [workerStep, hs]; rfl⟩
  | serving session =>
      by_cases hloop : session.pc.InLoop
      · obtain ⟨e, session', hsees, hstep⟩ :=
          Session.moves transport host s.stopping hloop
        exact ⟨.serve e, s.setStage t (.serving session'),
          by simp only [workerStep, hs, hsees, if_true, hstep, Option.map_some]⟩
      · cases hpc : session.pc with
        | left exit => exact ⟨.close, _, by simp only [workerStep, hs, hpc]; rfl⟩
        | _ => exact absurd (by rw [hpc]; trivial) hloop
  | closed => exact ⟨.markFinished, _, by simp only [workerStep, hs]; rfl⟩
  | marked => exact ⟨.exit, _, by simp only [workerStep, hs]; rfl⟩
  | exited => exact absurd hs hstage

/-- The main thread can move, unless the server has returned or a thread is to be waited for. -/
theorem main_moves (transport : Transport) (hpc : ∀ result, s.pc ≠ .finished result)
    (hawaits : ∀ t, s.awaits = some t → (s.threads t).stage = .exited) :
    ∃ e s', (Event.main e).admits = false ∧ mainStep transport s e = some s' := by
  cases hs : s.pc with
  | opening => exact ⟨.listen (.ok ()), _, rfl, by simp only [mainStep, hs]; rfl⟩
  | polling =>
      exact ⟨.poll (.returned .none), _, rfl, by simp only [mainStep, hs]; rfl⟩
  | accepting listener =>
      exact ⟨.accept .wouldBlock, _, rfl, by simp only [mainStep, hs, State.accept]; rfl⟩
  | configuring fd conn listener =>
      exact ⟨.configure true .fair, _, rfl, by simp only [mainStep, hs]; rfl⟩
  | closingListener result =>
      exact ⟨.closeListener (.ok ()) (.ok ()), _, rfl, by simp only [mainStep, hs]; rfl⟩
  | joining i t after =>
      have hexited := hawaits t (by simp only [State.awaits, hs])
      exact ⟨.tick, _, rfl, by simp only [mainStep, State.tick, hs, State.join, hexited]; rfl⟩
  | joiningAll next result =>
      refine ⟨.tick, ?_⟩
      simp only [mainStep, State.tick, hs]
      split
      · next hnext =>
          split
          · next hbusy =>
              have hexited := hawaits (s.workers ⟨next, hnext⟩).thread (by
                simp only [State.awaits, hs, dif_pos hnext, if_pos hbusy])
              simp only [State.join, hexited]
              exact ⟨_, rfl, rfl⟩
          · exact ⟨_, rfl, rfl⟩
      · exact ⟨_, rfl, rfl⟩
  | reaping next after =>
      refine ⟨.tick, ?_⟩
      simp only [mainStep, State.tick, hs]
      split <;> exact ⟨_, rfl, rfl⟩
  | loopTest | rejecting _ _ _ | checking _ | stopping _ | destroying _ =>
      exact ⟨.tick, _, rfl, by simp only [mainStep, State.tick, hs]; rfl⟩
  | finished result => exact absurd hs (hpc result)

/-- The threads the main thread waits for are its own. -/
theorem State.Valid.awaits_lt (hs : s.Valid transport host) {t : ThreadId}
    (h : s.awaits = some t) : t < s.nextThread := by
  have hpcOk := hs.pc
  unfold State.awaits at h
  split at h
  · next hpc =>
      cases h
      rw [hpc] at hpcOk
      obtain ⟨hbusy, rfl⟩ := hpcOk
      exact (hs.slots.busy _ hbusy).1
  · split at h
    · split at h
      · next hbusy =>
          cases h
          exact (hs.slots.busy _ hbusy).1
      · cases h
    · cases h
  · cases h

/-- Before `stopping` is published the main thread waits only for a thread that has no more to do
than to end. -/
theorem MarksOk.awaits_marked (hs : MarksOk s) (hvalid : s.Valid transport host) {t : ThreadId}
    (h : s.awaits = some t) (hpc : ¬ s.pc.Stopping) : (s.threads t).stage.Marked := by
  have hpcOk := hvalid.pc
  unfold State.awaits at h
  split at h
  · next i t' after hs' =>
      cases h
      rw [hs'] at hpcOk
      obtain ⟨hbusy, rfl⟩ := hpcOk
      exact hs.marked i hbusy (hs.joining i _ after hs')
  · next hs' => exact absurd (by rw [hs']; trivial) hpc
  · cases h

/-! ## Every run -/

theorem MainMove.published {e : MainEvent} (h : MainMove transport s e s')
    (hs : s.pc.Stopping → s.stopping = true) : s'.pc.Stopping → s'.stopping = true := by
  cases h with
  | publishes => exact fun _ => rfl
  | closesListener hpc | joinsNext hpc | skips hpc => exact fun _ => hs (by rw [hpc]; trivial)
  | polled | checks =>
      intro h
      dsimp only at h
      split at h <;> exact h.elim
  | @reaped _ after => exact fun h => by cases after <;> exact h.elim
  | accepts => exact fun h => by cases transport <;> exact h.elim
  | acceptInterrupted => exact hs
  | _ => exact fun h => h.elim

/-- What is known of the end of a server, wherever it is. -/
structure State.Stoppable (transport : Transport) (host : Host) (s : State) : Prop where
  valid : s.Valid transport host
  marks : MarksOk s
  heeded : Heeded s
  published : s.pc.Stopping → s.stopping = true

theorem stoppable_inductive (transport : Transport) (host : Host) :
    (transport.server host).Inductive (State.Stoppable transport host) where
  init := by
    rintro s ⟨stopRequested, rfl⟩
    have hmarks : MarksOk (.start stopRequested) :=
      ⟨(fun _ h => by cases h), (fun _ _ _ h => by cases h)⟩
    exact ⟨valid_start stopRequested, hmarks, (fun h => by cases h), fun h => h.elim⟩
  step := by
    intro s e s' hs hstep
    have hmove := step_move hstep
    refine ⟨(step_effect hs.valid.pc hstep).valid hs.valid, hmove.marks hs.valid.slots hs.marks,
      hmove.heeded hs.heeded, ?_⟩
    cases hmove with
    | signal => exact hs.published
    | main h => exact h.published hs.published
    | worker _ h =>
        rw [h.own.pc, h.own.stopping]
        exact hs.published

/-- **What a stop costs.** Once a signal has arrived the main thread has at most 202 steps left, and
132 more for each connection it still accepts; once `stopping` is published all the workers together
have at most 9 steps for each slot. -/
theorem stop_bounded {es : List Event} (hs : (transport.server host).Reachable s)
    (hrun : (transport.server host).Run s es s') :
    (s.stopRequested = true → es.countP Event.isMain ≤ 202 + 132 * es.countP Event.admits) ∧
      (s.stopping = true → es.countP Event.isWorker ≤ 9 * maxClients) := by
  constructor
  · intro hstop
    have hcount := (StepSystem.count_le (T := transport.server host)
      (fun _ _ _ hstop hstep => (step_move hstep).distance hstop) hstop hrun).2
    have hle := distance_le s.pc
    omega
  · intro hstop
    have hstoppable := (stoppable_inductive transport host).reachable hs
    have hcount : Winding s' ∧
        es.countP Event.isWorker + s'.labour ≤ s.labour + 0 * es.countP fun _ => false :=
      StepSystem.count_le (fun _ _ _ hs hstep => by simpa using (step_move hstep).labour hs)
        ⟨hstop, hstoppable.heeded hstop⟩ hrun
    have hle := hstoppable.valid.slots.labour_le
    omega

/-- A server with two connections is told to stop, and what it then does. -/
def beforeSignal : List Event := [listening, scan, arrival, scan, sameNumber, scan,
  [.main (.configure true .fair), .signal]].flatten

@[inherit_doc beforeSignal]
def behindSignal : List Event :=
  [[.main (.accept .wouldBlock), .main .tick, .main .tick, .main .tick,
    .main (.closeListener (.ok ()) (.ok ())), .worker 1 .enter, .worker 1 (.serve (.stopTest true)),
    .worker 1 .close, .worker 1 .markFinished, .worker 0 .markFinished, .worker 1 .exit,
    .worker 0 .exit], scan, [.main .tick]].flatten

theorem stop_bounded_run : ∃ s s', (Transport.tcp.server plainHost).Reachable s ∧
    (Transport.tcp.server plainHost).Run s behindSignal s' ∧ s.stopRequested = true ∧
    s'.pc = .finished (.ok ()) ∧
    behindSignal.countP Event.isMain ≤ 202 + 132 * behindSignal.countP Event.admits := by
  obtain ⟨s, hs, hp⟩ := server_reaches .tcp plainHost beforeSignal
    (fun s => s.stopRequested && (StepSystem.exec (step .tcp plainHost) s behindSignal).any
      fun s' => s'.pc.hasReturned (.ok ()))
    (by decide +kernel)
  rw [Bool.and_eq_true, Option.any_eq_true] at hp
  obtain ⟨hstop, s', hexec, hreturned⟩ := hp
  have hrun : (Transport.tcp.server plainHost).Run s behindSignal s' :=
    StepSystem.run_of_exec hexec
  exact ⟨s, s', hs, hrun, hstop, hasReturned_iff.mp hreturned, (stop_bounded hs hrun).1 hstop⟩

/-! ## Fair executions -/

/-- What a step of a worker, or a signal, leaves as it is. -/
structure Still (s s' : State) : Prop where
  stopping : s'.stopping = s.stopping
  awaits : s'.awaits = s.awaits

theorem Still.trans {s'' : State} (h : Still s s') (h' : Still s' s'') : Still s s'' :=
  ⟨h'.stopping.trans h.stopping, h'.awaits.trans h.awaits⟩

theorem Move.still (h : Move transport host s e s') (he : e.isMain = false) : Still s s' := by
  cases h with
  | signal => exact ⟨rfl, rfl⟩
  | main => cases he
  | worker _ h =>
      refine ⟨h.own.stopping, ?_⟩
      have hslot : ∀ i, (s'.workers i).inUse = (s.workers i).inUse ∧
          (s'.workers i).thread = (s.workers i).thread := by
        intro i
        rcases h.workers_eq i with heq | ⟨-, -, -, heq⟩ <;> simp [heq]
      simp only [State.awaits, h.own.pc, hslot]

/-- A thread that has ended stays so. -/
theorem Move.exited (h : Move transport host s e s') {t : ThreadId} (ht : t < s.nextThread)
    (hexited : (s.threads t).stage = .exited) :
    t < s'.nextThread ∧ (s'.threads t).stage = .exited := by
  cases h with
  | signal => exact ⟨ht, hexited⟩
  | main h =>
      cases h with
      | starts => exact ⟨Nat.lt_succ_of_lt ht, by simpa [Function.update_of_ne ht.ne] using hexited⟩
      | joins | joinsNext => exact ⟨ht, (joined_stage _ _ _ t).trans hexited⟩
      | _ => exact ⟨ht, hexited⟩
  | @worker u _ _ _ h =>
      refine ⟨h.own.nextThread ▸ ht, ?_⟩
      by_cases htu : t = u
      · subst htu
        cases h with
        | enters hstage | serves hstage | closes hstage | marks hstage | exits hstage =>
            rw [hexited] at hstage
            cases hstage
      · rw [h.own.others t htu]
        exact hexited

variable (x : (transport.server host).Execution)

/-- **The main thread comes to rest** when no more connections arrive. -/
theorem main_rests {n : Nat} (hstop : (x.state n).stopRequested = true)
    (hadmits : ∃ N, ∀ m, N ≤ m → (x.event m).admits = false) :
    ∃ N, ∀ m, N ≤ m → (x.event m).isMain = false := by
  obtain ⟨N, hquiet⟩ := hadmits
  have hstops : ∀ m, n ≤ m → (x.state m).stopRequested = true := fun m =>
    x.stays (P := fun s => s.stopRequested = true)
      (fun m _ hstop => ((step_move (x.step m)).distance hstop).1) hstop
  obtain ⟨M, -, hM⟩ := x.finally_not Event.isMain (fun s => s.pc.distance) (n := max n N)
    fun m hm => by
      have hdistance := ((step_move (x.step m)).distance (hstops m (by omega))).2
      simpa [hquiet m (by omega)] using hdistance
  exact ⟨M, hM⟩

/-- A main thread that rests, under a fair scheduler, waits for a thread for ever. -/
theorem main_waits (hs : ∀ m, (x.state m).Stoppable transport host)
    (hmain : x.Fair fun e => e.isMain = true)
    (hreturns : ∀ m result, (x.state m).pc ≠ .finished result) {N : Nat}
    (hrests : ∀ m, N ≤ m → (x.event m).isMain = false) :
    ∃ t, ∀ m, N ≤ m → (x.state m).awaits = some t ∧
      (x.state m).stopping = (x.state N).stopping ∧
      ((x.state m).threads t).stage ≠ .exited := by
  have hstill : ∀ m, N ≤ m → Still (x.state N) (x.state m) := fun m =>
    x.stays (P := Still (x.state N))
      (fun m hm h => h.trans ((step_move (x.step m)).still (hrests m hm))) ⟨rfl, rfl⟩
  -- if from some time on there were nothing to wait for, the main thread could move, and would
  have hnever : ∀ k, N ≤ k → ¬ ∀ m, k ≤ m → ∀ t, (x.state m).awaits = some t →
      ((x.state m).threads t).stage = .exited := by
    intro k hk hfree
    obtain ⟨m, hm, hmoves⟩ := hmain k fun m hm => by
      obtain ⟨e, s', -, hstep⟩ := main_moves transport (hreturns m) (hfree m hm)
      exact ⟨.main e, s', rfl, hstep⟩
    rw [hrests m (by omega)] at hmoves
    cases hmoves
  cases hawaits : (x.state N).awaits with
  | none =>
      refine absurd (fun m hm t ht => ?_) (hnever N (le_refl N))
      rw [(hstill m hm).awaits, hawaits] at ht
      cases ht
  | some t =>
      refine ⟨t, fun m hm => ⟨(hstill m hm).awaits.trans hawaits, (hstill m hm).stopping,
        fun hexited => ?_⟩⟩
      refine absurd (fun k hk u hu => ?_) (hnever m hm)
      have ht : t < (x.state m).nextThread :=
        (hs m).valid.awaits_lt ((hstill m hm).awaits.trans hawaits)
      rw [(hstill k (by omega)).awaits, hawaits] at hu
      cases hu
      exact (x.stays (P := fun s => t < s.nextThread ∧ (s.threads t).stage = .exited)
        (fun i _ h => (step_move (x.step i)).exited h.1 h.2) ⟨ht, hexited⟩ hk).2

/-- A step of this worker. -/
def Event.IsOf (t : ThreadId) (e : Event) : Prop := ∃ w, e = .worker t w

/-- Told to stop, the main thread comes to its end. -/
theorem main_returns (hs : ∀ m, (x.state m).Stoppable transport host) {n : Nat}
    (hstop : (x.state n).stopRequested = true)
    (hadmits : ∃ N, ∀ m, N ≤ m → (x.event m).admits = false)
    (hmain : x.Fair fun e => e.isMain = true) (hworkers : ∀ t, x.Fair (Event.IsOf t)) :
    ∃ m result, (x.state m).pc = .finished result := by
  by_contra hreturns
  push Not at hreturns
  obtain ⟨N, hrests⟩ := main_rests x hstop hadmits
  obtain ⟨t, hwaits⟩ := main_waits x hs hmain hreturns hrests
  -- the thread it waits for can always move, so it does, again and again
  have hmoves : ∀ k, N ≤ k → ∃ m, k ≤ m ∧ (x.event m).IsOf t := by
    intro k hk
    refine hworkers t k fun m hm => ?_
    obtain ⟨hawaits, -, hstage⟩ := hwaits m (by omega)
    obtain ⟨e, s', hstep⟩ := worker_moves transport host ((hs m).valid.awaits_lt hawaits) hstage
    exact ⟨.worker t e, s', ⟨e, rfl⟩, hstep⟩
  by_cases hstopping : (x.state N).stopping = true
  · -- the workers are at their ends
    have hwinding : ∀ m, N ≤ m → Winding (x.state m) := fun m =>
      x.stays (P := Winding) (fun i _ h => ((step_move (x.step i)).labour h).1)
        ⟨hstopping, (hs N).heeded hstopping⟩
    obtain ⟨M, hM, hnone⟩ := x.finally_not Event.isWorker State.labour (n := N)
      fun m hm => ((step_move (x.step m)).labour (hwinding m hm)).2
    obtain ⟨m, hm, e, he⟩ := hmoves M hM
    have hnot := hnone m hm
    rw [he] at hnot
    cases hnot
  · -- the thread has marked its slot, and its next step is its last
    obtain ⟨m, hm, e, he⟩ := hmoves N (le_refl N)
    obtain ⟨hawaits, hsame, -⟩ := hwaits m hm
    have hpc : ¬ (x.state m).pc.Stopping := fun hpc =>
      hstopping (hsame ▸ (hs m).published hpc)
    have hmarked := (hs m).marks.awaits_marked (hs m).valid hawaits hpc
    have hmove := step_move (x.step m)
    rw [he] at hmove
    cases hmove with
    | worker _ h => exact (hwaits (m + 1) (by omega)).2.2 (h.ends hmarked)

/-- **Told to stop, the threaded servers return**: in every execution in which each thread that can
always move does move at last, and in which `accept` does not return connections for ever and is not
interrupted for ever. No client can prevent it, whatever it sends or does not send: before `stopping`
is published the main thread waits only for threads that have marked themselves finished, and behind
that the workers heed it. -/
theorem stopped_server_returns (hinit : (transport.server host).init (x.state 0)) {n : Nat}
    (hstop : (x.state n).stopRequested = true)
    (hadmits : ∃ N, ∀ m, N ≤ m → (x.event m).admits = false)
    (hmain : x.Fair fun e => e.isMain = true) (hworkers : ∀ t, x.Fair (Event.IsOf t)) :
    (∃ m result, (x.state m).pc = .finished result) ∧
      ∀ m t, (x.state m).stopping = false → (x.state m).awaits = some t →
        ((x.state m).threads t).stage.Marked := by
  have hs : ∀ m, (x.state m).Stoppable transport host := fun m =>
    (stoppable_inductive transport host).reachable (x.reachable hinit m)
  refine ⟨main_returns x hs hstop hadmits hmain hworkers, fun m t hrunning hawaits => ?_⟩
  refine (hs m).marks.awaits_marked (hs m).valid hawaits fun hpc => ?_
  rw [(hs m).published hpc] at hrunning
  cases hrunning

/-- A server that has returned does nothing. -/
theorem Move.of_finished (h : Move transport host s e s') (hs : s.Valid transport host)
    {result : Except Errno Unit} (hpc : s.pc = .finished result) : e = .signal := by
  have hfree := hs.pc
  rw [hpc] at hfree
  cases h with
  | signal => rfl
  | main h =>
      exfalso
      cases h <;> rw [hpc] at * <;> contradiction
  | worker ht h =>
      have hexited := (hs.slots.all_joined hfree ht).2
      exfalso
      cases h with
      | enters hstage | serves hstage | closes hstage | marks hstage | exits hstage =>
          rw [hexited] at hstage
          cases hstage

/-- A run that ends with the server's return is the beginning of an execution that is fair to every
thread. -/
theorem exists_fair_execution {es : List Event} {result : Except Errno Unit}
    (hexec : StepSystem.exec (step transport host) (.start false) es = some s)
    (hstop : s.stopRequested = true) (hpc : s.pc = .finished result) :
    ∃ x : (transport.server host).Execution,
      (∀ n t, n ≤ es.length →
        StepSystem.exec (step transport host) (.start false) (es.take n) = some t → x.state n = t) ∧
      (∀ m, es.length ≤ m → x.state m = s ∧ x.event m = .signal) ∧
      ∀ A : Event → Prop, ¬ A .signal → x.Fair A := by
  have hloop : step transport host s .signal = some s := by
    rw [step, ← hstop]
  obtain ⟨x, hx, htail⟩ : ∃ x : (transport.server host).Execution, _ ∧ _ :=
    StepSystem.exists_execution hexec hloop
  refine ⟨x, hx, htail, fun A hA n hcan => ?_⟩
  -- behind the return no thread can move
  obtain ⟨e, s', he, hstep⟩ := hcan (max n es.length) (le_max_left _ _)
  rw [(htail _ (le_max_right _ _)).1] at hstep
  have hs : s.Valid transport host :=
    valid_of_reachable ⟨_, es, ⟨false, rfl⟩, StepSystem.run_of_exec hexec⟩
  rw [(step_move hstep).of_finished hs hpc] at he
  exact absurd he hA

/-- A worker comes to its end and the main thread is about to join it; then the server is stopped. -/
def beforeJoin : List Event :=
  [listening, scan, arrival, scan,
    [.main (.configure true .fair), .worker 0 .enter, .worker 0 (.serve (.stopTest false)),
      .worker 0 (.serve (.process .fair)), .worker 0 (.serve (.poll .failed)), .worker 0 .close,
      .worker 0 .markFinished, .main (.accept .wouldBlock), .main .tick, .main .tick,
      .main .tick]].flatten

@[inherit_doc beforeJoin]
def behindJoin : List Event :=
  [[.worker 0 .exit], List.replicate maxClients (.main .tick), [.main .tick],
    [.signal, .main (.poll .interrupted), .main .tick, .main .tick,
      .main (.closeListener (.ok ()) (.ok ()))], scan, [.main .tick]].flatten

/-- A server that has a worker to join when it is told to stop. -/
theorem stopped_server_returns_run : ∃ (x : (Transport.tcp.server plainHost).Execution) (n : Nat),
    (x.state n).stopRequested = true ∧ (∃ m result, (x.state m).pc = .finished result) ∧
    ∃ m, (x.state m).stopping = false ∧ (x.state m).awaits = some 0 ∧
      ((x.state m).threads 0).stage.Marked := by
  have hend : (StepSystem.exec (step .tcp plainHost) (.start false) (beforeJoin ++ behindJoin)).any
      (fun s => s.stopRequested && s.pc.hasReturned (.ok ())) = true := by
    decide +kernel
  have hjoins : (StepSystem.exec (step .tcp plainHost) (.start false)
      ((beforeJoin ++ behindJoin).take beforeJoin.length)).any
        (fun s => !s.stopping && s.awaits == some 0) = true := by
    decide +kernel
  rw [Option.any_eq_true] at hend hjoins
  obtain ⟨s, hexec, hp⟩ := hend
  obtain ⟨t, hexec', hwaits⟩ := hjoins
  rw [Bool.and_eq_true, hasReturned_iff] at hp
  rw [Bool.and_eq_true, Bool.not_eq_true', beq_iff_eq] at hwaits
  obtain ⟨x, hx, htail, hfair⟩ := exists_fair_execution hexec hp.1 hp.2
  have hstop : (x.state (beforeJoin ++ behindJoin).length).stopRequested = true := by
    rw [(htail _ (le_refl _)).1]
    exact hp.1
  have hjoin : x.state beforeJoin.length = t := hx _ t (by simp) hexec'
  have hinit : (Transport.tcp.server plainHost).init (x.state 0) := by
    rw [hx 0 _ (Nat.zero_le _) rfl]
    exact ⟨false, rfl⟩
  obtain ⟨hreturns, hmarked⟩ := stopped_server_returns x hinit hstop
    ⟨_, fun m hm => by rw [(htail m hm).2]; rfl⟩ (hfair _ fun h => by cases h)
    fun t => hfair _ fun h => by obtain ⟨_, h⟩ := h; cases h
  rw [← hjoin] at hwaits
  exact ⟨x, _, hstop, hreturns, _, hwaits.1, hwaits.2, hmarked _ 0 hwaits.1 hwaits.2⟩

end Server

end WireCommand.Threaded
