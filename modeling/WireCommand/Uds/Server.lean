import WireCommand.Uds.Functions

/-!
# Every run of the poll server

`Move` lists what a step can do, one constructor for each, and `step_move` is the only place where
the step function is taken apart. `State.Valid` adds to the invariant of the world what the program
counter promises: an entry of the poll list stands for the connection it was built for, the client
that is being visited is there, and the slots that `wc_uds_close_all_clients` has passed are free.

* `connection_ledger` is the account of every connection in every reachable state: nothing that was
  read is lost, repeated or reordered on its way to the queue and through it, and the client is sent
  the responses in order and complete.
* `descriptor_attribution` says that reused descriptors do no harm: whatever the server does on
  behalf of a connection, it does to that connection.
-/

namespace WireCommand.Uds

open Foundation Foundation.Framing Protocol

/-! ## What a step can do -/

/-- The steps of the server. -/
inductive Move (host : Host) : State → Event → State → Prop
  | signal {pc stop w} (h : ∀ result, pc ≠ .finished result) :
      Move host ⟨pc, stop, w⟩ .signal ⟨pc.interrupt, true, w⟩
  | stop {w} : Move host ⟨.loopTest, true, w⟩ .tick ⟨.closing (.ok ()) 0, true, w⟩
  | enter {w} : Move host ⟨.loopTest, false, w⟩ .tick ⟨.processQueue, false, w⟩
  | process {stop w env released again w'} (h : processQueue host w env released = (again, w')) :
      Move host ⟨.processQueue, stop, w⟩ (.process env released)
        ⟨if again then .processQueue else .buildPollList, stop, w'⟩
  | build {stop w} :
      Move host ⟨.buildPollList, stop, w⟩ .tick
        ⟨.polling (listenerEvents w.clients) (buildPollList w.clients) false, stop, w⟩
  | interrupted {listener entries stop w} :
      Move host ⟨.polling listener entries true, stop, w⟩ (.poll .interrupted) ⟨.loopTest, stop, w⟩
  | pollFailed {listener entries interrupted stop w errno} :
      Move host ⟨.polling listener entries interrupted, stop, w⟩ (.poll (.failed errno))
        ⟨.closing (.error errno) 0, stop, w⟩
  | listenerBroken {events entries interrupted stop w listener clients}
      (h : pollAnswers listener clients events entries = true) (hbroken : listener.broken = true) :
      Move host ⟨.polling events entries interrupted, stop, w⟩ (.poll (.ready listener clients))
        ⟨.closing (.error .eio) 0, stop, w⟩
  | ready {events entries interrupted stop w listener clients}
      (h : pollAnswers listener clients events entries = true) (hbroken : listener.broken = false) :
      Move host ⟨.polling events entries interrupted, stop, w⟩ (.poll (.ready listener clients))
        ⟨.serving listener (fillRevents entries clients), stop, w⟩
  | served {listener stop w} :
      Move host ⟨.serving listener [], stop, w⟩ .tick
        ⟨if listener.pollIn then .accepting else .loopTest, stop, w⟩
  | skip {listener entry todo stop w} (h : ¬ w.Live entry.slot) :
      Move host ⟨.serving listener (entry :: todo), stop, w⟩ .tick ⟨.serving listener todo, stop, w⟩
  | visit {listener entry todo stop w} (h : w.Live entry.slot) :
      Move host ⟨.serving listener (entry :: todo), stop, w⟩ .tick
        ⟨visit entry listener todo, stop, w⟩
  | read {entry listener todo stop w outcome env released result}
      (h : readClient w entry.slot outcome env = some result) :
      Move host ⟨.visiting .read entry listener todo, stop, w⟩ (.read outcome env released)
        (continueVisit ⟨.visiting .read entry listener todo, stop, w⟩ entry listener todo
          (afterRead entry listener todo) released result)
  | send {entry listener todo stop w outcome released result}
      (h : writeClient w entry.slot outcome = some result) :
      Move host ⟨.visiting .write entry listener todo, stop, w⟩ (.send outcome released)
        (continueVisit ⟨.visiting .write entry listener todo, stop, w⟩ entry listener todo
          (.visiting .check entry listener todo) released result)
  | check {entry listener todo stop w released} :
      Move host ⟨.visiting .check entry listener todo, stop, w⟩ (.close released)
        ⟨.serving listener todo, stop,
          if entry.revents.broken then removeClient w entry.slot released else w⟩
  | accept {stop w outcome nonblockingOk released again w'}
      (h : acceptClients w outcome nonblockingOk released = some (again, w')) :
      Move host ⟨.accepting, stop, w⟩ (.accept outcome nonblockingOk released)
        ⟨if again then .accepting else .loopTest, stop, w'⟩
  | close {result next stop w released} (h : next < maxClients) :
      Move host ⟨.closing result next, stop, w⟩ (.close released)
        ⟨.closing result (next + 1), stop, removeClient w ⟨next, h⟩ released⟩
  | closed {result next stop w released} (h : ¬ next < maxClients) :
      Move host ⟨.closing result next, stop, w⟩ (.close released) ⟨.closed result, stop, w⟩
  | shutdown {result result' stop w closed unlinked} :
      Move host ⟨.closed result, stop, w⟩ (.shutdown closed unlinked)
        ⟨.finished result', stop, { w with queue := Queue.clear w.queue }⟩

variable {host : Host} {w w' : World} {i : Slot} {s s' : State} {e : Event}

/-- Every step is one of the moves. -/
theorem step_move (h : step host s e = some s') : Move host s e s' := by
  obtain ⟨pc, stop, w⟩ := s
  cases e with
  | signal =>
      simp only [step] at h
      split at h
      · cases h
      · next hpc => cases h; exact .signal hpc
  | tick =>
      simp only [step, tick] at h
      split at h
      · cases stop <;> cases h
        · exact .enter
        · exact .stop
      · cases h; exact .build
      · cases h; exact .served
      · split at h
        · next hfree => cases h; exact .skip (not_not.mpr hfree)
        · next hlive => cases h; exact .visit hlive
      · cases h
  | process env released =>
      simp only [step] at h
      split at h
      · cases h; exact .process rfl
      · cases h
  | poll outcome =>
      simp only [step, pollReturns] at h
      split at h
      · cases outcome with
        | interrupted =>
            simp only at h
            split at h
            · next hinterrupted => cases h; subst hinterrupted; exact .interrupted
            · cases h
        | failed errno => cases h; exact .pollFailed
        | ready listener clients =>
            simp only at h
            split at h
            · next hanswers =>
                split at h
                · next hbroken => cases h; exact .listenerBroken hanswers hbroken
                · next hbroken => cases h; exact .ready hanswers (by simpa using hbroken)
            · cases h
      · cases h
  | read outcome env released =>
      simp only [step] at h
      split at h
      · obtain ⟨result, hread, rfl⟩ := Option.map_eq_some_iff.mp h
        exact .read hread
      · cases h
  | send outcome released =>
      simp only [step] at h
      split at h
      · obtain ⟨result, hsend, rfl⟩ := Option.map_eq_some_iff.mp h
        exact .send hsend
      · cases h
  | accept outcome nonblockingOk released =>
      simp only [step] at h
      split at h
      · obtain ⟨⟨again, w'⟩, haccept, rfl⟩ := Option.map_eq_some_iff.mp h
        exact .accept haccept
      · cases h
  | close released =>
      simp only [step] at h
      split at h
      · cases h; exact .check
      · split at h
        · next hnext => cases h; exact .close hnext
        · next hnext => cases h; exact .closed hnext
      · cases h
  | shutdown closed unlinked =>
      simp only [step] at h
      split at h
      · cases h; exact .shutdown
      · cases h

/-! ## The invariant of the server -/

/-- The entry stands for the client in its slot. -/
def Matches (w : World) (entry : PollEntry) : Prop :=
  (w.clients entry.slot).fd = entry.fd ∧ (w.clients entry.slot).conn = entry.conn

/-- The entry stands for the client in its slot, if there still is one. -/
def Current (w : World) (entry : PollEntry) : Prop := w.Live entry.slot → Matches w entry

/-- What the program counter promises about the world. -/
def PcOk (w : World) : Pc → Prop
  | .polling _ entries _ => ∀ entry ∈ entries, Current w entry
  | .serving _ todo => ∀ entry ∈ todo, Current w entry
  | .visiting _ entry _ todo =>
      (w.Live entry.slot ∧ Matches w entry) ∧ ∀ entry ∈ todo, Current w entry
  | .closing _ next => ∀ i : Slot, i.val < next → ¬ w.Live i
  | .closed _ => ∀ i, ¬ w.Live i
  | .finished _ => ∀ i, ¬ w.Live i
  | _ => True

/-- The invariant of the server. -/
structure State.Valid (host : Host) (s : State) : Prop where
  world : s.world.Valid host
  pc : PcOk s.world s.pc

/-- From `w` to `w'` clients may have left, and none has come. -/
def Keeps (w w' : World) : Prop :=
  ∀ i, w'.Live i → w.Live i ∧ (w'.clients i).fd = (w.clients i).fd ∧
    (w'.clients i).conn = (w.clients i).conn

theorem Touches.keeps (ht : Touches i w w') : Keeps w w' :=
  fun j hj => ⟨ht.live.mp hj, ht.fd_eq j, ht.conn_eq j⟩

theorem keeps_removeClient (released : Bool) : Keeps w (removeClient w i released) := by
  intro j hj
  obtain ⟨hlive, hne⟩ := (removeClient_live released).mp hj
  rw [removeClient_clients released hne]
  exact ⟨hlive, rfl, rfl⟩

theorem Keeps.trans {w₁ w₂ w₃ : World} (h : Keeps w₁ w₂) (h' : Keeps w₂ w₃) : Keeps w₁ w₃ := by
  intro i hi
  obtain ⟨hi, hfd', hconn'⟩ := h' i hi
  obtain ⟨hi, hfd, hconn⟩ := h i hi
  exact ⟨hi, hfd'.trans hfd, hconn'.trans hconn⟩

theorem Keeps.connected {c : Nat} (hk : Keeps w w') (h : w'.Connected c) : w.Connected c := by
  obtain ⟨i, hi, hconn⟩ := h
  obtain ⟨hi, -, hconn'⟩ := hk i hi
  exact ⟨i, hi, hconn' ▸ hconn⟩

/-- Clients that leave take nobody's place. -/
theorem Current.mono (hk : Keeps w w') {todo : List PollEntry}
    (h : ∀ entry ∈ todo, Current w entry) : ∀ entry ∈ todo, Current w' entry := by
  intro entry hentry hlive
  obtain ⟨hlive, hfd, hconn⟩ := hk entry.slot hlive
  obtain ⟨hfd', hconn'⟩ := h entry hentry hlive
  exact ⟨hfd.trans hfd', hconn.trans hconn'⟩

theorem current_buildPollList : ∀ entry ∈ buildPollList w.clients, Current w entry := by
  intro entry hentry _
  obtain ⟨i, -, rfl⟩ := List.mem_map.mp hentry
  exact ⟨rfl, rfl⟩

/-- The events that `poll` found change nothing else about an entry. -/
theorem current_fillRevents {entries : List PollEntry} {clients : List Revents}
    (h : ∀ entry ∈ entries, Current w entry) :
    ∀ entry ∈ fillRevents entries clients, Current w entry := by
  intro entry hentry
  obtain ⟨⟨old, revents⟩, hmem, rfl⟩ := List.mem_map.mp hentry
  exact h old (List.of_mem_zip hmem).1

/-- An iteration that served the visited client leaves the server in order. -/
theorem continueVisit_valid {entry : PollEntry} {listener : Revents} {todo : List PollEntry}
    {next : Pc} {released : Bool} {iteration : Iteration} (hs : s.Valid host)
    (hpc : PcOk s.world (.visiting .check entry listener todo))
    (ht : Touches entry.slot s.world w')
    (hok : iteration ≠ .failed → ClientOk host w' (w'.clients entry.slot))
    (hstay : PcOk w' s.pc) (hnext : PcOk w' next) :
    (continueVisit s entry listener todo next released (iteration, w')).Valid host := by
  cases iteration with
  | again => exact ⟨hs.world.touch hpc.1.1 ht (hok (by decide)), hstay⟩
  | done => exact ⟨hs.world.touch hpc.1.1 ht (hok (by decide)), hnext⟩
  | failed =>
      have hkeeps : Keeps s.world (removeClient w' entry.slot released) :=
        ht.keeps.trans (keeps_removeClient released)
      exact ⟨hs.world.remove hpc.1.1 ht released, Current.mono hkeeps hpc.2⟩

/-- A client that was served is still the entry's. -/
theorem visiting_mono {phase phase' : Phase} {entry : PollEntry} {listener : Revents}
    {todo : List PollEntry} (h : PcOk w (.visiting phase entry listener todo))
    (ht : Touches entry.slot w w') : PcOk w' (.visiting phase' entry listener todo) :=
  ⟨⟨ht.live.mpr h.1.1, ht.fd.trans h.1.2.1, ht.conn.trans h.1.2.2⟩, Current.mono ht.keeps h.2⟩

theorem pcOk_interrupt {pc : Pc} (h : PcOk w pc) : PcOk w pc.interrupt := by
  cases pc <;> exact h

/-- **Every step keeps the invariant.** -/
theorem Move.valid (hmove : Move host s e s') (hs : s.Valid host) : s'.Valid host := by
  have hw := hs.world
  have hpc := hs.pc
  cases hmove with
  | signal _ => exact ⟨hw, pcOk_interrupt hpc⟩
  | stop => exact ⟨hw, fun _ h => absurd h (Nat.not_lt_zero _)⟩
  | enter => exact ⟨hw, trivial⟩
  | @process stop w env released again w' hprocess =>
      have hvalid := processQueue_valid hw env released
      rw [hprocess] at hvalid
      cases again <;> exact ⟨hvalid, trivial⟩
  | build => exact ⟨hw, current_buildPollList⟩
  | interrupted => exact ⟨hw, trivial⟩
  | pollFailed => exact ⟨hw, fun _ h => absurd h (Nat.not_lt_zero _)⟩
  | listenerBroken _ _ => exact ⟨hw, fun _ h => absurd h (Nat.not_lt_zero _)⟩
  | ready _ _ => exact ⟨hw, current_fillRevents hpc⟩
  | served => refine ⟨hw, ?_⟩; split <;> trivial
  | skip _ => exact ⟨hw, fun entry h => hpc entry (List.mem_cons_of_mem _ h)⟩
  | @visit listener entry todo stop w hlive =>
      have hvisit : ∀ phase, PcOk w (.visiting phase entry listener todo) := fun _ =>
        ⟨⟨hlive, hpc entry List.mem_cons_self hlive⟩,
          fun other h => hpc other (List.mem_cons_of_mem _ h)⟩
      refine ⟨hw, ?_⟩
      simp only [Uds.visit, afterRead]
      split
      · exact hvisit _
      · exact hvisit _
  | @read entry listener todo stop w outcome env released result hread =>
      obtain ⟨iteration, w'⟩ := result
      obtain ⟨ht, hok⟩ := readClient_spec hw hpc.1.1 hread
      exact continueVisit_valid hs hpc ht hok (visiting_mono hpc ht) (visiting_mono hpc ht)
  | @send entry listener todo stop w outcome released result hsend =>
      obtain ⟨iteration, w'⟩ := result
      obtain ⟨ht, hok⟩ := writeClient_spec hw hpc.1.1 hsend
      exact continueVisit_valid hs hpc ht hok (visiting_mono hpc ht) (visiting_mono hpc ht)
  | @check entry listener todo stop w released =>
      have hremove : (removeClient w entry.slot released).Valid host :=
        hw.remove hpc.1.1 (.refl hw) released
      by_cases hbroken : entry.revents.broken = true
      · simp only [hbroken, if_true]
        exact ⟨hremove, Current.mono (keeps_removeClient released) hpc.2⟩
      · simp only [hbroken]
        exact ⟨hw, hpc.2⟩
  | @accept stop w outcome nonblockingOk released again w' haccept =>
      cases again <;> exact ⟨acceptClients_valid hw haccept, trivial⟩
  | @close result next stop w released hnext =>
      refine ⟨?_, ?_⟩
      · by_cases hlive : w.Live ⟨next, hnext⟩
        · exact hw.remove hlive (.refl hw) released
        · rw [removeClient_of_free hlive]
          exact hw
      · intro i hi hlive
        obtain ⟨hlive, hne⟩ := (removeClient_live released).mp hlive
        have hlt : i.val < next := by
          have : i.val ≠ next := fun h => hne (Fin.ext h)
          omega
        exact hpc i hlt hlive
  | closed hnext => exact ⟨hw, fun i => hpc i (by omega)⟩
  | shutdown =>
      refine ⟨?_, hpc⟩
      have hno : ∀ i, ¬ World.Live _ i := hpc
      exact ⟨fun i hi => absurd hi (hno i), hw.fd_inj, hw.conn_inj, nofun, Nat.zero_le _, hw.fresh⟩

/-- What a step does to the world when no connection arrives: nothing, or something for one client,
who may be removed for it, or the queue is cleared at the end. -/
inductive Effect (w : World) : World → Prop
  | same : Effect w w
  | served {w' : World} (i : Slot) (hi : w.Live i) (ht : Touches i w w') : Effect w w'
  | removed {w' : World} (i : Slot) (hi : w.Live i) (ht : Touches i w w') (released : Bool) :
      Effect w (removeClient w' i released)
  | cleared : Effect w { w with queue := Queue.clear w.queue }

/-- The effect of a step, arrivals included. -/
def StepEffect (w : World) (e : Event) (w' : World) : Prop :=
  Effect w w' ∨ ∃ fd nonblockingOk released,
    e = .accept (.accepted fd) nonblockingOk released ∧ Arrival w fd nonblockingOk released w'

/-- When no connection arrives, none comes. -/
theorem Effect.keeps (h : Effect w w') : Keeps w w' := by
  cases h with
  | same => exact fun i hi => ⟨hi, rfl, rfl⟩
  | served i hi ht => exact ht.keeps
  | removed i hi ht released => exact ht.keeps.trans (keeps_removeClient released)
  | cleared => exact fun i hi => ⟨hi, rfl, rfl⟩

theorem processQueue_effect (hv : w.Valid host) (env : Response.Env) (released : Bool) :
    Effect w (processQueue host w env released).2 := by
  have hspec := processQueue_spec hv env released
  generalize processQueue host w env released = result at hspec ⊢
  cases hspec with
  | waits _ => exact .same
  | answered hqueue hi hfd _ _ => exact .served _ hi (touches_afterDequeue hv hqueue hfd _)
  | failed hqueue hi hfd _ _ => exact .removed _ hi (touches_afterDequeue hv hqueue hfd _) released

theorem continueVisit_effect {entry : PollEntry} {listener : Revents} {todo : List PollEntry}
    {next : Pc} {released : Bool} {iteration : Iteration} (hlive : s.world.Live entry.slot)
    (ht : Touches entry.slot s.world w') :
    Effect s.world (continueVisit s entry listener todo next released (iteration, w')).world := by
  cases iteration with
  | again => exact .served entry.slot hlive ht
  | done => exact .served entry.slot hlive ht
  | failed => exact .removed entry.slot hlive ht released

theorem removeClient_effect (hv : w.Valid host) (released : Bool) :
    Effect w (removeClient w i released) := by
  by_cases hi : w.Live i
  · exact .removed i hi (.refl hv) released
  · rw [removeClient_of_free hi]
    exact .same

/-- **Every step has one of these effects.** -/
theorem Move.effect (hmove : Move host s e s') (hs : s.Valid host) :
    StepEffect s.world e s'.world := by
  have hw := hs.world
  have hpc := hs.pc
  cases hmove with
  | @process stop w env released again w' hprocess =>
      have heffect := processQueue_effect hw env released
      rw [hprocess] at heffect
      exact .inl heffect
  | @read entry listener todo stop w outcome env released result hread =>
      obtain ⟨iteration, w'⟩ := result
      exact .inl <| continueVisit_effect hpc.1.1 (readClient_spec hw hpc.1.1 hread).1
  | @send entry listener todo stop w outcome released result hsend =>
      obtain ⟨iteration, w'⟩ := result
      exact .inl <| continueVisit_effect hpc.1.1 (writeClient_spec hw hpc.1.1 hsend).1
  | check =>
      simp only
      split
      · exact .inl (removeClient_effect hw _)
      · exact .inl .same
  | accept haccept =>
      rcases acceptClients_arrival haccept with rfl | ⟨fd, rfl, harrival⟩
      · exact .inl .same
      · exact .inr ⟨fd, _, _, rfl, harrival⟩
  | close hnext => exact .inl (removeClient_effect hw _)
  | shutdown => exact .inl .cleared
  | _ => exact .inl .same

theorem valid_start (openFds : Finset Int) (stopRequested : Bool) :
    (State.start openFds stopRequested).Valid host := by
  have hfree : ∀ i, ¬ (World.start openFds).Live i := fun i h => h rfl
  exact ⟨⟨fun i h => absurd h (hfree i), fun i _ h => absurd h (hfree i),
    fun i _ h => absurd h (hfree i), nofun, Nat.zero_le _, fun _ _ => ⟨rfl, rfl⟩⟩, trivial⟩

theorem server_inductive (host : Host) : (server host).Inductive (State.Valid host) where
  init := by
    rintro s ⟨openFds, stopRequested, rfl⟩
    exact valid_start openFds stopRequested
  step _ _ _ hs hstep := (step_move hstep).valid hs

/-- **Every reachable state is in order.** -/
theorem valid_of_reachable (hs : (server host).Reachable s) : s.Valid host :=
  (server_inductive host).reachable hs

/-! ## The accounts of a connection -/

/-- The accounts of the connection in a slot: `requests` arrived, and the first `k` were
answered. -/
structure Accounts (host : Host) (w : World) (i : Slot) (requests : List Request) (k : Nat) :
    Prop where
  answered_le : k ≤ requests.length
  received : w.received (w.clients i).conn =
    requestCodec.encodeAll requests ++ (w.clients i).input.data
  queued : Queue.ofClient w.queue (w.clients i).fd =
    (requests.drop k).map (queued (w.clients i).fd (w.clients i).conn)
  sent : w.sent (w.clients i).conn ++ (w.clients i).output.data =
    (requests.take k).flatMap (respond host)
  /-- The output buffer holds bytes of one response at most, the last one. -/
  one_response : (w.clients i).output.data = [] ∨
    ∃ r, (requests.take k).getLast? = some r ∧ (w.clients i).output.data <:+ respond host r

theorem ClientOk.accounts (hok : ClientOk host w (w.clients i)) :
    ∃ requests k, Accounts host w i requests k := by
  obtain ⟨answered, pending, hledger, hqueue⟩ := hok.balanced
  have htake : (answered ++ pending).take answered.length = answered := List.take_left
  have hdrop : (answered ++ pending).drop answered.length = pending := List.drop_left
  refine ⟨answered ++ pending, answered.length, ⟨?_, hledger.received_eq, ?_, ?_, ?_⟩⟩
  · simp
  · rw [hdrop, hqueue]
  · rw [htake, hledger.sent_eq]
  · rw [htake]
    by_cases hempty : (w.clients i).output.data = []
    · exact .inl hempty
    · obtain ⟨earlier, last, rfl, hsuffix⟩ := hledger.last_only hempty
      exact .inr ⟨last, by simp, hsuffix⟩

/-- **The ledger of every connection, in every run.** For every client that is connected there are
the requests it has sent, of which the queue holds those not answered yet and the wire and the
output buffer hold the responses to the others; and the shared queue keeps to its limit. -/
theorem connection_ledger (hs : (server host).Reachable s) :
    s.world.queue.length ≤ maxQueuedRequests ∧
    ∀ i, s.world.Live i → ∃ requests k, Accounts host s.world i requests k := by
  have hvalid := valid_of_reachable hs
  exact ⟨hvalid.world.queue_le, fun i hi => (hvalid.world.client i hi).accounts⟩

/-! ## A concrete run -/

/-- The first slot. -/
def slot0 : Slot := ⟨0, by decide⟩

/-- A `PWD` request on the wire. -/
def pwdFrame : Bytes := [0, 6, 0, 2, 0, 0]

/-- From the loop test to `poll` with nothing in the queue. -/
def idleRound : List Event := [.tick, .process .fair true, .tick]

/-- A client connects with descriptor 5. -/
def connectRound : List Event :=
  idleRound ++ [.poll (.ready .readable []), .tick, .accept (.accepted 5) true true,
    .accept .wouldBlock true true]

/-- The only client has sent a `PWD` request, which is read and run. -/
def requestRound : List Event :=
  idleRound ++ [.poll (.ready .none [.readable]), .tick, .read (.data pwdFrame) .fair true,
    .read .wouldBlock .fair true, .close true, .tick, .tick, .process .fair true]

/-- The server is about to call `accept`. -/
def Pc.isAccepting : Pc → Bool
  | .accepting => true
  | _ => false

theorem isAccepting_iff {pc : Pc} : pc.isAccepting = true ↔ pc = .accepting := by
  cases pc <;> simp [Pc.isAccepting]

/-- A run of the server, with descriptor 3 for its listener. -/
theorem server_reaches (host : Host) (es : List Event) (test : State → Bool)
    (h : (StepSystem.exec (step host) (.start {3} false) es).any test = true) :
    ∃ s, (server host).Reachable s ∧ test s = true :=
  StepSystem.exists_reachable ⟨{3}, false, rfl⟩ h

/-- A client whose request has been run, with the response waiting. -/
theorem connection_ledger_run : ∃ s, (server plainHost).Reachable s ∧
    (s.world.clients slot0).output.data = [0, 1, 47] ∧
    ∃ requests k, Accounts plainHost s.world slot0 requests k := by
  obtain ⟨s, hs, hp⟩ := server_reaches plainHost (connectRound ++ requestRound)
    (fun s => s.world.Live slot0 && ((s.world.clients slot0).output.data == [0, 1, 47]))
    (by decide +kernel)
  simp only [Bool.and_eq_true, decide_eq_true_eq, beq_iff_eq] at hp
  exact ⟨s, hs, hp.2, (connection_ledger hs).2 slot0 hp.1⟩

/-! ## Descriptors -/

/-- What the server knows about its clients by their descriptors is right. -/
structure Attributed (s : State) : Prop where
  fd_nonneg : ∀ i, s.world.Live i → 0 ≤ (s.world.clients i).fd
  fd_inj : s.world.Separates Client.fd
  /-- A queued request has the descriptor of the connection it was parsed from. -/
  origin : ∀ entry ∈ s.world.queue, ∃ i, s.world.Live i ∧
    (s.world.clients i).fd = entry.clientFd ∧ (s.world.clients i).conn = entry.origin
  /-- `wc_uds_process_queue` finds the client of the request it is going to run. -/
  found : ∀ first, Queue.peek s.world.queue = some first → ∃ i,
    findClient s.world.clients first.clientFd = some i ∧ s.world.Live i ∧
      (s.world.clients i).conn = first.origin
  /-- `wc_uds_close_all_clients` leaves no request behind. -/
  closed : ∀ result, s.pc = .closed result → s.world.queue = []
  /-- The events of an entry are applied to the connection the entry was built for. -/
  visited : ∀ phase entry listener todo, s.pc = .visiting phase entry listener todo →
    s.world.Live entry.slot ∧ (s.world.clients entry.slot).fd = entry.fd ∧
      (s.world.clients entry.slot).conn = entry.conn

/-- A queued request was parsed from the connection of its client. -/
theorem World.Valid.origin (hv : w.Valid host) {entry : QueuedRequest} (hentry : entry ∈ w.queue) :
    ∃ i, w.Live i ∧ (w.clients i).fd = entry.clientFd ∧ (w.clients i).conn = entry.origin := by
  obtain ⟨i, hi, hfd⟩ := hv.owned entry hentry
  obtain ⟨answered, pending, -, hqueue⟩ := (hv.client i hi).balanced
  have hmem : entry ∈ Queue.ofClient w.queue (w.clients i).fd :=
    List.mem_filter.mpr ⟨hentry, by simpa using hfd.symm⟩
  rw [hqueue] at hmem
  obtain ⟨r, -, rfl⟩ := List.mem_map.mp hmem
  exact ⟨i, hi, rfl, rfl⟩

theorem State.Valid.attributed (hs : s.Valid host) : Attributed s where
  fd_nonneg i hi := (hs.world.client i hi).fd_nonneg
  fd_inj := hs.world.fd_inj
  origin entry hentry := hs.world.origin hentry
  found first hpeek := by
    obtain ⟨rest, hqueue⟩ := List.head?_eq_some_iff.mp hpeek
    obtain ⟨i, hfind, hi, hfd⟩ := hs.world.findClient_head hqueue
    have hfirst : first ∈ s.world.queue := by
      rw [hqueue]
      exact List.mem_cons_self
    obtain ⟨j, hj, hfdj, horigin⟩ := hs.world.origin hfirst
    -- the slot that is found and the slot of the request's origin have one descriptor
    have hij : i = j := hs.world.fd_inj i j hi hj (hfd.trans hfdj.symm)
    exact ⟨i, hfind, hi, hij ▸ horigin⟩
  closed result hpc := by
    have hfree := hs.pc
    rw [hpc] at hfree
    -- every queued request has a client, and there is none left
    apply List.eq_nil_iff_forall_not_mem.mpr
    intro entry hentry
    obtain ⟨i, hi, -⟩ := hs.world.owned entry hentry
    exact hfree i hi
  visited phase entry listener todo hpc := by
    have h := hs.pc
    rw [hpc] at h
    exact h.1

/-- **Reused descriptors do no harm.** In every reachable state the server's descriptors mean the
connections it takes them for, and a connection that `accept` returned, unless `fcntl` fails on it,
gets a slot: `wc_uds_add_client` does not find the table full. -/
theorem descriptor_attribution (hs : (server host).Reachable s) :
    Attributed s ∧
    ∀ fd released s', s.pc = .accepting → hasFreeClientSlot s.world.clients = true →
      step host s (.accept (.accepted fd) true released) = some s' →
      ∃ i, s'.world.clients i = .connected fd s.world.nextConn := by
  refine ⟨(valid_of_reachable hs).attributed, ?_⟩
  intro fd released s' hpc hfree hstep
  obtain ⟨i, -, hadd⟩ := addClient_of_free hfree fd s.world.nextConn
  simp only [step, hpc] at hstep
  obtain ⟨⟨again, w'⟩, haccept, rfl⟩ := Option.map_eq_some_iff.mp hstep
  simp only [acceptClients, hfree, if_true, World.connect, hadd] at haccept
  split at haccept
  · cases haccept
    exact ⟨i, by simp⟩
  · cases haccept

/-- The only client sends a request and closes its connection, whose descriptor is given to the next
one. That one sends a request too, and while it is in the queue a third connection comes. -/
def descriptorReused : List Event :=
  connectRound ++ idleRound ++
  [.poll (.ready .none [.readable]), .tick, .read (.data pwdFrame) .fair true,
    .read .eof .fair true, .tick] ++
  connectRound ++ idleRound ++
  [.poll (.ready .readable [.readable]), .tick, .read (.data pwdFrame) .fair true,
    .read .wouldBlock .fair true, .close true, .tick]

/-- The request in the queue has the descriptor of both connections and is of the second. -/
theorem descriptor_attribution_run : ∃ s s', (server plainHost).Reachable s ∧
    s.world.received 0 = pwdFrame ∧ ¬ s.world.Connected 0 ∧
    (∃ entry, s.world.queue = [entry] ∧ entry.clientFd = 5 ∧ entry.origin = 1 ∧
      ∃ i, s.world.Live i ∧ (s.world.clients i).fd = 5 ∧ (s.world.clients i).conn = 1) ∧
    step plainHost s (.accept (.accepted 6) true true) = some s' ∧
    ∃ i, s'.world.clients i = .connected 6 2 := by
  obtain ⟨s, hs, hp⟩ := server_reaches plainHost descriptorReused
    (fun s => s.pc.isAccepting && hasFreeClientSlot s.world.clients && s.world.nextConn == 2 &&
      s.world.received 0 == pwdFrame && !decide (s.world.Connected 0) &&
      s.world.queue == [queued 5 1 pwdRequest] &&
      (step plainHost s (.accept (.accepted 6) true true)).isSome) (by decide +kernel)
  simp only [Bool.and_eq_true, Bool.not_eq_true', decide_eq_false_iff_not, beq_iff_eq] at hp
  obtain ⟨⟨⟨⟨⟨⟨hpc, hfree⟩, hnext⟩, hreceived⟩, hgone⟩, hqueue⟩, hsome⟩ := hp
  obtain ⟨s', hstep⟩ := Option.isSome_iff_exists.mp hsome
  obtain ⟨hattributed, hslot⟩ := descriptor_attribution hs
  obtain ⟨i, hi, hfd, hconn⟩ := hattributed.origin (queued 5 1 pwdRequest) (by simp [hqueue])
  refine ⟨s, s', hs, hreceived, hgone, ⟨_, hqueue, rfl, rfl, i, hi, hfd, hconn⟩, hstep, ?_⟩
  rw [← hnext]
  exact hslot 6 true s' (isAccepting_iff.mp hpc) hfree hstep

end WireCommand.Uds
