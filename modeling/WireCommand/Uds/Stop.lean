import WireCommand.Uds.Server

/-!
# Stopping the poll server

SIGINT and SIGTERM set a flag, and the loop tests the flag before each round. `poll` sleeps without
a timeout, so a signal has to reach the server either before the test or during the call, which it
interrupts. Between the two lies a **window**, in which the queue is worked off, commands run and
the poll list is built: a signal that arrives there sets a flag that nobody reads until some socket
becomes ready.

`stop_slept_through` is a run that falls asleep this way. `stop_heeded` says that the window is all
there is to it: with no signal in the window the server never sleeps with the flag set, and after a
signal in the window there is no way past `poll`.
-/

namespace WireCommand.Uds

open Foundation

variable {host : Host} {s s' : State} {e : Event}

/-- Between the test of the flag and the call of `poll`. -/
def Pc.InWindow : Pc → Prop
  | .processQueue => True
  | .buildPollList => True
  | _ => False

/-- In a call of `poll` that the stop request will not interrupt: it was made with the flag set, and
no signal has arrived since. -/
def State.Asleep (s : State) : Prop :=
  ∃ listener entries, s.pc = .polling listener entries false ∧ s.stopRequested = true

/-- The flag is set, and `poll` comes before the next test. -/
def State.Doomed (s : State) : Prop := s.pc.InWindow ∧ s.stopRequested = true

/-- A step that is not a signal in the window. -/
def SignalOutsideWindow (s : State) (e : Event) : Prop := e = .signal → ¬ s.pc.InWindow

/-- The poll server, when no signal arrives in the window. -/
def timelyServer (host : Host) : StepSystem State Event :=
  (server host).restrict SignalOutsideWindow

/-- With no signal in the window, the flag is clear there and when `poll` is called. -/
def State.Timely (s : State) : Prop := ¬ s.Doomed ∧ ¬ s.Asleep

theorem timely_of_pc {pc : Pc} {stop : Bool} {w : World} (hwindow : ¬ pc.InWindow)
    (hpoll : ∀ listener entries, pc ≠ .polling listener entries false) :
    State.Timely ⟨pc, stop, w⟩ := by
  refine ⟨fun h => hwindow h.1, ?_⟩
  rintro ⟨listener, entries, hpc, -⟩
  exact hpoll listener entries hpc

theorem timely_of_clear {pc : Pc} {w : World} : State.Timely ⟨pc, false, w⟩ := by
  refine ⟨nofun, ?_⟩
  rintro ⟨-, -, -, h⟩
  cases h

/-- Where a visit goes on is outside the window. -/
theorem continueVisit_timely {entry : PollEntry} {listener : Revents} {todo : List PollEntry}
    {phase phase' : Phase} {stop released : Bool} {w : World} (result : Iteration × World) :
    (continueVisit ⟨.visiting phase entry listener todo, stop, w⟩ entry listener todo
      (.visiting phase' entry listener todo) released result).Timely := by
  obtain ⟨iteration, w'⟩ := result
  cases iteration <;> exact timely_of_pc id (by simp)

theorem Move.timely (hmove : Move host s e s') (hs : s.Timely)
    (htimely : SignalOutsideWindow s e) : s'.Timely := by
  cases hmove with
  | @signal pc stop w _ =>
      -- outside the window the flag is tested before the next `poll`, or `poll` is interrupted
      have hwindow : ¬ pc.InWindow := htimely rfl
      apply timely_of_pc
      · cases pc <;> simp_all [Pc.interrupt, Pc.InWindow]
      · intro listener entries
        cases pc <;> simp [Pc.interrupt]
  | stop => exact timely_of_pc id (by simp)
  | enter => exact timely_of_clear
  | @process stop w env released again w' _ =>
      -- a server that gets here with the flag set was doomed before
      cases stop with
      | true => exact absurd ⟨trivial, rfl⟩ hs.1
      | false => exact timely_of_clear
  | @build stop w =>
      cases stop with
      | true => exact absurd ⟨trivial, rfl⟩ hs.1
      | false => exact timely_of_clear
  | interrupted => exact timely_of_pc id (by simp)
  | pollFailed => exact timely_of_pc id (by simp)
  | listenerBroken _ _ => exact timely_of_pc id (by simp)
  | ready _ _ => exact timely_of_pc id (by simp)
  | served => split <;> exact timely_of_pc id (by simp)
  | skip _ => exact timely_of_pc id (by simp)
  | visit _ =>
      simp only [Uds.visit, afterRead]
      split <;> exact timely_of_pc id (by simp)
  | read _ => exact continueVisit_timely _
  | send _ => exact continueVisit_timely _
  | check => exact timely_of_pc id (by simp)
  | @accept stop w outcome nonblockingOk released again w' _ =>
      cases again <;> exact timely_of_pc id (by simp)
  | close _ => exact timely_of_pc id (by simp)
  | closed _ => exact timely_of_pc id (by simp)
  | shutdown => exact timely_of_pc id (by simp)

theorem timelyServer_inductive (host : Host) : (timelyServer host).Inductive State.Timely where
  init := by
    rintro s ⟨openFds, stopRequested, rfl⟩
    exact timely_of_pc id (by simp)
  step _ _ _ hs hstep := (step_move hstep.1).timely hs hstep.2

/-- From a doomed state there is one way only, into `poll`. -/
theorem Move.doomed (hmove : Move host s e s') (hs : s.Doomed) : s'.Doomed ∨ s'.Asleep := by
  obtain ⟨hwindow, hstop⟩ := hs
  cases hmove with
  | @signal pc stop w _ =>
      refine .inl ⟨?_, rfl⟩
      cases pc <;> simp_all [Pc.interrupt, Pc.InWindow]
  | @process stop w env released again w' _ => exact .inl ⟨by cases again <;> trivial, hstop⟩
  | build => exact .inr ⟨_, _, rfl, hstop⟩
  | _ => exact hwindow.elim

/-- **The window is all that is wrong with stopping.** While no signal arrives in it, the server
never sleeps in `poll` with the flag set: if the flag is set there, the signal interrupted the call
and the next test sees it. A signal that arrives in the window makes the server sleep with the flag
set before it can test it again. -/
theorem stop_heeded (host : Host) :
    (∀ s, (timelyServer host).Reachable s → ¬ s.Asleep ∧
      ∀ listener entries interrupted, s.pc = .polling listener entries interrupted →
        s.stopRequested = true → step host s (.poll .interrupted) = some { s with pc := .loopTest }) ∧
    (∀ s s', s.pc.InWindow → step host s .signal = some s' → s'.Doomed) ∧
    ∀ s e s', s.Doomed → step host s e = some s' → s'.Doomed ∨ s'.Asleep := by
  refine ⟨?_, ?_, fun s e s' hs hstep => (step_move hstep).doomed hs⟩
  · intro s hs
    have hawake := ((timelyServer_inductive host).reachable hs).2
    refine ⟨hawake, ?_⟩
    intro listener entries interrupted hpc hstop
    cases interrupted with
    | false => exact absurd ⟨listener, entries, hpc, hstop⟩ hawake
    | true => simp [step, pollReturns, hpc]
  · intro s s' hwindow hstep
    cases step_move hstep with
    | @signal pc stop w _ =>
        refine ⟨?_, rfl⟩
        cases pc <;> simp_all [Pc.interrupt, Pc.InWindow]

/-- In `poll`, and whether a signal has arrived in the call. -/
def Pc.inPoll (interrupted : Bool) : Pc → Bool
  | .polling _ _ i => i == interrupted
  | _ => false

theorem inPoll_iff {interrupted : Bool} {pc : Pc} :
    pc.inPoll interrupted = true ↔ ∃ listener entries, pc = .polling listener entries interrupted := by
  cases pc <;> simp [Pc.inPoll]

/-- An idle server that gets the signal while it sleeps. -/
theorem stop_heeded_run : ∃ s, (timelyServer plainHost).Reachable s ∧ s.stopRequested = true ∧
    step plainHost s (.poll .interrupted) = some { s with pc := .loopTest } := by
  -- the four steps one by one, since a restricted run has to show its condition at each of them
  have h₀ : (timelyServer plainHost).Reachable (.start {3} false) := .of_init ⟨{3}, false, rfl⟩
  have h₁ : (timelyServer plainHost).Reachable ⟨.processQueue, false, .start {3}⟩ :=
    h₀.next (e := .tick) ⟨rfl, nofun⟩
  have h₂ : (timelyServer plainHost).Reachable ⟨.buildPollList, false, .start {3}⟩ :=
    h₁.next (e := .process .fair true) ⟨rfl, nofun⟩
  have h₃ : (timelyServer plainHost).Reachable
      ⟨.polling (listenerEvents fun _ => .free) (buildPollList fun _ => .free) false, false,
        .start {3}⟩ :=
    h₂.next (e := .tick) ⟨rfl, nofun⟩
  have h₄ : (timelyServer plainHost).Reachable
      ⟨.polling (listenerEvents fun _ => .free) (buildPollList fun _ => .free) true, true,
        .start {3}⟩ :=
    h₃.next (e := .signal) ⟨rfl, fun _ => id⟩
  exact ⟨_, h₄, rfl, ((stop_heeded plainHost).1 _ h₄).2 _ _ _ rfl rfl⟩

/-- **A stop request can be slept through.** An idle server gets the signal right behind the test of
the flag. It goes on into `poll`, and only a ready socket, a failure of `poll` or another signal
gets it out of there. -/
theorem stop_slept_through : ∃ s, (server plainHost).Reachable s ∧ s.Asleep ∧
    ∀ e s', step plainHost s e = some s' →
      e = .signal ∨ (∃ errno, e = .poll (.failed errno)) ∨
      ∃ listener clients, e = .poll (.ready listener clients) ∧
        (listener :: clients).any (· ≠ Revents.none) = true := by
  obtain ⟨s, hs, hp⟩ := server_reaches plainHost
    [.tick, .signal, .process .fair true, .tick]
    (fun s => s.pc.inPoll false && s.stopRequested) (by decide +kernel)
  simp only [Bool.and_eq_true] at hp
  obtain ⟨listener, entries, hpc⟩ := inPoll_iff.mp hp.1
  refine ⟨s, hs, ⟨listener, entries, hpc, hp.2⟩, ?_⟩
  intro e s' hstep
  cases step_move hstep with
  | signal _ => exact .inl rfl
  | pollFailed => exact .inr (.inl ⟨_, rfl⟩)
  | listenerBroken h _ | ready h _ =>
      simp only [pollAnswers, Bool.and_eq_true] at h
      exact .inr (.inr ⟨_, _, rfl, h.2⟩)
  | _ => cases hpc

end WireCommand.Uds
