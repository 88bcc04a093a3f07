import WireCommand.Uds.Server

/-!
# A client on its own

What the poll server does for a client that is the only one, whose stream consists of whole requests,
and in whose way the system does not get (`undisturbed`). Such a client is removed at the end of its
stream and at no other time (`Move.stays`), however its stream is cut into reads: its requests fit into
the queue, and its responses into its buffer. What it is sent is a front of its responses
(`OnItsOwn.sent_le`).
-/

namespace WireCommand.Uds

open Foundation Foundation.Framing Protocol

variable {host : Host} {requests : List Request} {c : Nat} {w w' : World} {i : Slot}
  {s s' : State} {e : Event} {shut : Bool}

/-! ## Nothing gets in its way -/

/-- What happens while the connection `c` is served: its peer sends the frames of `requests`, in
any pieces, and at some time shuts down its writing side; no stop request, no failing call or allocation
and no other client interferes. Once the peer has shut down (`shut`), there is something to read at any
time: bytes, and behind the last of them the end of the stream. -/
def undisturbed (requests : List Request) (c : Nat) (shut : Bool) (s : State) : Event → Bool
  | .signal => false
  | .process env _ => env = .fair
  | .poll (.failed _) => false
  | .poll (.ready listener clients) => !listener.broken && clients.all fun revents => !revents.broken
  | .read (.data bytes) env _ =>
      env = .fair && decide (s.world.received c ++ bytes <+: requestCodec.encodeAll requests)
  | .read .eof _ _ => shut && decide (s.world.received c = requestCodec.encodeAll requests)
  | .read .wouldBlock _ _ => !shut
  | .read .failed _ _ => false
  | .send .failed _ => false
  | .accept (.accepted _) _ _ => false
  | _ => true

/-- The events found for a client are neither an error nor a hangup. -/
def Calm : Pc → Prop
  | .serving _ todo => ∀ entry ∈ todo, entry.revents.broken = false
  | .visiting _ entry _ todo =>
      entry.revents.broken = false ∧ ∀ entry ∈ todo, entry.revents.broken = false
  | .closing _ _ => False
  | .closed _ => False
  | .finished _ => False
  | _ => True

/-- The client of the connection is on its own, and its stream is the one expected. -/
structure OnItsOwn (requests : List Request) (c : Nat) (s : State) : Prop where
  only : ∀ i, s.world.Live i → (s.world.clients i).conn = c
  stream : s.world.received c <+: requestCodec.encodeAll requests
  calm : Calm s.pc

/-! ## The bytes that arrive and leave -/

/-- Nothing is sent on a connection that is not there. -/
theorem StepEffect.sent_of_gone (heffect : StepEffect w e w') (h : ¬ w.Connected c) :
    w'.sent c = w.sent c := by
  have hne : ∀ i, w.Live i → c ≠ (w.clients i).conn := fun i hi hc => h ⟨i, hi, hc.symm⟩
  rcases heffect with heffect | ⟨fd, nonblockingOk, released, -, harrival⟩
  · cases heffect with
    | same => rfl
    | served i hi ht => exact ht.sent c (hne i hi)
    | removed i hi ht released =>
        rw [removeClient_eq (ht.live.mpr hi)]
        exact ht.sent c (hne i hi)
    | cleared => rfl
  · rw [harrival.streams.2.2]

theorem Effect.nextConn (h : Effect w w') : w'.nextConn = w.nextConn := by
  cases h with
  | same => rfl
  | served i hi ht => exact ht.nextConn
  | removed i hi ht released => rw [removeClient_nextConn, ht.nextConn]
  | cleared => rfl

theorem processQueue_received (hv : w.Valid host) (env : Response.Env) (released : Bool) :
    (processQueue host w env released).2.received = w.received := by
  have hspec := processQueue_spec hv env released
  generalize processQueue host w env released = result at hspec ⊢
  cases hspec with
  | waits _ => rfl
  | answered _ _ _ _ _ => rfl
  | failed _ _ _ _ _ => exact removeClient_received released

theorem writeClient_received {outcome : SendOutcome} {iteration : Iteration}
    (h : writeClient w i outcome = some (iteration, w')) : w'.received = w.received := by
  cases writeClient_wrote h <;> rfl

/-- What arrives is what `read` returned. -/
theorem readClient_received {outcome : ReadOutcome} {env : ReadEnv} {iteration : Iteration}
    (hv : w.Valid host) (hi : w.Live i)
    (h : readClient w i outcome env = some (iteration, w')) :
    w'.received = w.received ∨ ∃ bytes, outcome = .data bytes ∧
      w'.received = (w.noteReceived (w.clients i).conn bytes).received := by
  cases readClient_read hv hi h with
  | eof | interrupted | wouldBlock | failed => exact .inl rfl
  | lost _ | parsed _ _ _ _ _ _ => exact .inr ⟨_, rfl, rfl⟩

@[simp] theorem continueVisit_received {entry : PollEntry} {listener : Revents}
    {todo : List PollEntry} {next : Pc} {released : Bool} (result : Iteration × World) :
    (continueVisit s entry listener todo next released result).world.received =
      result.2.received := by
  obtain ⟨iteration, w'⟩ := result
  cases iteration with
  | again => rfl
  | done => rfl
  | failed => exact removeClient_received released

/-- Bytes arrive only in a read of the client that is being visited. -/
theorem Move.received (hmove : Move host s e s') (hs : s.Valid host) :
    s'.world.received = s.world.received ∨
    ∃ bytes env released entry listener todo, e = .read (.data bytes) env released ∧
      s.pc = .visiting .read entry listener todo ∧
      s'.world.received =
        (s.world.noteReceived (s.world.clients entry.slot).conn bytes).received := by
  cases hmove with
  | @process stop w env released again w' hprocess =>
      have h := processQueue_received hs.world env released
      rw [hprocess] at h
      exact .inl h
  | @read entry listener todo stop w outcome env released result hread =>
      obtain ⟨iteration, w'⟩ := result
      rw [continueVisit_received]
      rcases readClient_received hs.world hs.pc.1.1 hread with h | ⟨bytes, rfl, h⟩
      · exact .inl h
      · exact .inr ⟨bytes, env, released, entry, listener, todo, rfl, rfl, h⟩
  | @send entry listener todo stop w outcome released result hsend =>
      obtain ⟨iteration, w'⟩ := result
      rw [continueVisit_received]
      exact .inl (writeClient_received hsend)
  | check =>
      simp only
      split
      · exact .inl (removeClient_received _)
      · exact .inl rfl
  | accept haccept =>
      rcases acceptClients_arrival haccept with rfl | ⟨fd, -, harrival⟩
      · exact .inl rfl
      · exact .inl harrival.streams.2.1
  | close _ => exact .inl (removeClient_received _)
  | _ => exact .inl rfl

/-- What was sent on a connection stays sent. -/
theorem writeClient_sent {outcome : SendOutcome} {iteration : Iteration}
    (h : writeClient w i outcome = some (iteration, w')) (c : Nat) : w.sent c <+: w'.sent c := by
  cases writeClient_wrote h with
  | nothing | interrupted | wouldBlock | failed => exact List.prefix_rfl
  | sent _ _ =>
      by_cases hc : c = (w.clients i).conn
      · subst hc
        show _ <+: Function.update w.sent _ _ _
        rw [Function.update_self]
        exact List.prefix_append _ _
      · show _ <+: Function.update w.sent _ _ c
        rw [Function.update_of_ne hc]

@[simp] theorem continueVisit_sent {entry : PollEntry} {listener : Revents}
    {todo : List PollEntry} {next : Pc} {released : Bool} (result : Iteration × World) :
    (continueVisit s entry listener todo next released result).world.sent = result.2.sent := by
  obtain ⟨iteration, w'⟩ := result
  cases iteration with
  | again | done => rfl
  | failed => exact removeClient_sent released

theorem readClient_sent {outcome : ReadOutcome} {env : ReadEnv} {iteration : Iteration}
    (hv : w.Valid host) (hi : w.Live i) (h : readClient w i outcome env = some (iteration, w')) :
    w'.sent = w.sent := by
  cases readClient_read hv hi h <;> rfl

theorem processQueue_sent (hv : w.Valid host) (env : Response.Env) (released : Bool) :
    (processQueue host w env released).2.sent = w.sent := by
  have hspec := processQueue_spec hv env released
  generalize processQueue host w env released = result at hspec ⊢
  cases hspec with
  | waits _ | answered _ _ _ _ _ => rfl
  | failed _ _ _ _ _ => exact removeClient_sent released

theorem Move.sent_prefix (hmove : Move host s e s') (hs : s.Valid host) (c : Nat) :
    s.world.sent c <+: s'.world.sent c := by
  cases hmove with
  | @process stop w env released again w' hprocess =>
      have h := processQueue_sent hs.world env released
      rw [hprocess] at h
      exact (congrFun h c).symm ▸ List.prefix_rfl
  | @read entry listener todo stop w outcome env released result hread =>
      obtain ⟨iteration, w'⟩ := result
      rw [continueVisit_sent, readClient_sent hs.world hs.pc.1.1 hread]
  | @send entry listener todo stop w outcome released result hsend =>
      obtain ⟨iteration, w'⟩ := result
      rw [continueVisit_sent]
      exact writeClient_sent hsend c
  | check =>
      simp only
      split
      · rw [removeClient_sent]
      · exact List.prefix_rfl
  | accept haccept =>
      rcases acceptClients_arrival haccept with rfl | ⟨fd, -, harrival⟩
      · exact List.prefix_rfl
      · rw [harrival.streams.2.2]
  | close _ => rw [removeClient_sent]
  | _ => exact List.prefix_rfl

/-! ## One step -/

theorem calm_fillRevents {entries : List PollEntry} {clients : List Revents}
    (h : clients.all (fun revents => !revents.broken) = true) :
    ∀ entry ∈ fillRevents entries clients, entry.revents.broken = false := by
  intro entry hentry
  obtain ⟨⟨old, revents⟩, hmem, rfl⟩ := List.mem_map.mp hentry
  simpa using List.all_eq_true.mp h revents (List.of_mem_zip hmem).2

theorem continueVisit_calm {entry : PollEntry} {listener : Revents} {todo : List PollEntry}
    {phase phase' : Phase} {released : Bool} (result : Iteration × World)
    (hpc : s.pc = .visiting phase entry listener todo) (hcalm : Calm s.pc) :
    Calm (continueVisit s entry listener todo (.visiting phase' entry listener todo) released
      result).pc := by
  obtain ⟨iteration, w'⟩ := result
  rw [hpc] at hcalm
  cases iteration with
  | again => simp only [continueVisit, hpc]; exact hcalm
  | done => exact hcalm
  | failed => exact hcalm.2

/-- The server stays calm. -/
theorem Move.calm (hmove : Move host s e s') (hcalm : Calm s.pc) (hstop : s.stopRequested = false)
    (hcond : undisturbed requests c shut s e = true) : Calm s'.pc := by
  cases hmove with
  | signal _ => cases hcond
  | stop => cases hstop
  | enter => trivial
  | @process stop w env released again w' _ => cases again <;> trivial
  | build => trivial
  | interrupted => trivial
  | pollFailed => cases hcond
  | listenerBroken _ hbroken => simp [undisturbed, hbroken] at hcond
  | ready _ _ =>
      simp only [undisturbed, Bool.and_eq_true] at hcond
      exact calm_fillRevents hcond.2
  | served => simp only; split <;> trivial
  | skip _ => exact fun entry hentry => hcalm entry (List.mem_cons_of_mem _ hentry)
  | @visit listener entry todo stop w _ =>
      have hvisit : ∀ phase, Calm (.visiting phase entry listener todo) := fun _ =>
        ⟨hcalm entry List.mem_cons_self, fun other h => hcalm other (List.mem_cons_of_mem _ h)⟩
      simp only [Uds.visit, afterRead]
      split
      · exact hvisit _
      · exact hvisit _
  | read _ => exact continueVisit_calm _ rfl hcalm
  | send _ => exact continueVisit_calm _ rfl hcalm
  | check => exact hcalm.2
  | @accept stop w outcome nonblockingOk released again w' _ => cases again <;> trivial
  | close _ => exact hcalm.elim
  | closed _ => exact hcalm.elim
  | shutdown => exact hcalm.elim

/-- A step that is not disturbed leaves the client on its own. -/
theorem Move.onItsOwn (hmove : Move host s e s') (hs : s.Valid host)
    (hown : OnItsOwn requests c s) (hstop : s.stopRequested = false)
    (hcond : undisturbed requests c shut s e = true) : OnItsOwn requests c s' where
  only i hi := by
    rcases hmove.effect hs with heffect | ⟨fd, _, _, rfl, -⟩
    · obtain ⟨hi, -, hconn⟩ := heffect.keeps i hi
      rw [hconn]
      exact hown.only i hi
    · cases hcond
  stream := by
    rcases hmove.received hs with h | ⟨bytes, env, released, entry, listener, todo, rfl, hpc, h⟩
    · rw [h]
      exact hown.stream
    · have hpcok := hs.pc
      rw [hpc] at hpcok
      simp only [undisturbed, Bool.and_eq_true, decide_eq_true_eq] at hcond
      rw [h, hown.only entry.slot hpcok.1.1, noteReceived_self]
      exact hcond.2
  calm := hmove.calm hown.calm hstop hcond

/-- What the client has been sent is a front of the responses to its requests. -/
theorem OnItsOwn.sent_le (hown : OnItsOwn requests c s) (hs : s.Valid host)
    (hc : s.world.Connected c) : s.world.sent c <+: requests.flatMap (respond host) := by
  obtain ⟨i, hi, rfl⟩ := hc
  obtain ⟨answered, pending, hledger, -⟩ := (hs.world.client i hi).balanced
  obtain ⟨more, hmore⟩ := hown.stream
  rw [hledger.received_eq, List.append_assoc] at hmore
  obtain ⟨rest, hrequests, -⟩ := requestCodec.encodeAll_split hmore
  rw [hrequests, List.append_assoc, List.flatMap_append, ← hledger.sent_eq, List.append_assoc]
  exact List.prefix_append _ _

/-- When its whole stream has been read, all its requests are accounted for. -/
theorem ClientOk.accounts_of_stream (hok : ClientOk host w (w.clients i))
    (hstream : w.received (w.clients i).conn = requestCodec.encodeAll requests) :
    ∃ k, Accounts host w i requests k := by
  obtain ⟨arrived, k, haccounts⟩ := hok.accounts
  have hread : requestCodec.Maximal (w.received (w.clients i).conn) arrived
      (w.clients i).input.data := .of_needMore _ haccounts.received hok.parsed
  have hwhole : requestCodec.Maximal (w.received (w.clients i).conn) requests [] :=
    ⟨by rw [hstream, List.append_nil], rfl⟩
  obtain ⟨rfl, -⟩ := hread.unique hwhole
  exact ⟨k, haccounts⟩

/-- A step reads nothing from the client, or the next bytes of its stream. -/
theorem OnItsOwn.received_or (hown : OnItsOwn requests c s) (hmove : Move host s e s')
    (hs : s.Valid host) : ∃ bytes, s'.world.received c = s.world.received c ++ bytes := by
  rcases hmove.received hs with h | ⟨bytes, env, released, entry, listener, todo, rfl, hpc, h⟩
  · exact ⟨[], by rw [h, List.append_nil]⟩
  · have hpcok := hs.pc
    rw [hpc] at hpcok
    exact ⟨bytes, by rw [h, hown.only entry.slot hpcok.1.1, noteReceived_self]⟩

/-! ## The client is not lost -/

/-- Clients stay. -/
def Stays (w w' : World) : Prop :=
  ∀ i, w.Live i → w'.Live i ∧ (w'.clients i).conn = (w.clients i).conn

theorem Touches.stays (ht : Touches i w w') : Stays w w' :=
  fun j hj => ⟨ht.live.mpr hj, ht.conn_eq j⟩

theorem Stays.refl : Stays w w := fun _ hi => ⟨hi, rfl⟩

theorem Stays.connected (h : Stays w w') (hc : w.Connected c) : w'.Connected c := by
  obtain ⟨i, hi, hconn⟩ := hc
  obtain ⟨hi', hconn'⟩ := h i hi
  exact ⟨i, hi', hconn'.trans hconn⟩

/-- Parsing the front of a well-formed stream stops only for want of input, while the queue has room
for the rest of the stream. -/
theorem EnqueueStopped.ok_of_stream {input : Buffer} {queue : RequestQueue}
    {result : Except Errno Unit} {more : Bytes} {rest : List Request}
    (hstop : EnqueueStopped ReadEnv.fair.mallocOk input queue result)
    (hstream : input.data ++ more = requestCodec.encodeAll rest)
    (hroom : queue.length + rest.length ≤ maxQueuedRequests) : result = .ok () := by
  cases result with
  | ok _ => rfl
  | error errno =>
      rcases hstop with ⟨-, hinvalid⟩ | ⟨-, hfull, hcomplete⟩ | ⟨-, hmalloc⟩
      · -- a malformed header would still be there in the whole stream
        have hwhole := requestVerdict_invalid_append more hinvalid
        rw [hstream] at hwhole
        cases rest with
        | nil => cases hwhole
        | cons r rest =>
            rw [requestCodec.encodeAll_cons, requestCodec_encode, requestVerdict_frame] at hwhole
            cases hwhole
      · -- the request that finds the queue full would be one too many
        have hnil : rest = [] := List.eq_nil_of_length_eq_zero (by omega)
        rw [hnil, requestCodec.encodeAll_nil, List.append_eq_nil_iff] at hstream
        rw [hstream.1] at hcomplete
        cases hcomplete
      · cases hmalloc

/-- A client that is alone owns the whole queue. -/
theorem World.Valid.queue_of_alone (hv : w.Valid host) (halone : ∀ j, w.Live j → j = i) :
    Queue.ofClient w.queue (w.clients i).fd = w.queue := by
  apply List.filter_eq_self.mpr
  intro entry hentry
  obtain ⟨j, hj, hfd⟩ := hv.owned entry hentry
  rw [halone j hj] at hfd
  simpa using hfd.symm

/-- Reading a piece of the expected stream does not fail. -/
theorem readClient_stays {bytes : Bytes} {iteration : Iteration} (hv : w.Valid host)
    (hi : w.Live i) (halone : ∀ j, w.Live j → j = i)
    (hlen : requests.length ≤ maxQueuedRequests)
    (hstream : w.received (w.clients i).conn ++ bytes <+: requestCodec.encodeAll requests)
    (h : readClient w i (.data bytes) .fair = some (iteration, w')) : iteration = .again := by
  have hok := hv.client i hi
  cases readClient_read hv hi h with
  | lost halloc => cases halloc
  | @parsed _ appended input parsed result hdata _ hsplit _ _ hstop =>
      obtain ⟨answered, pending, hledger, hpending⟩ := hok.balanced
      rw [hv.queue_of_alone halone] at hpending
      -- the ledger after the read splits the expected stream at what is parsed now
      have hledger' := hledger.receive bytes
      rw [← hdata, hsplit] at hledger'
      obtain ⟨more, hmore⟩ := hstream
      rw [hledger'.parse.received_eq, List.append_assoc] at hmore
      obtain ⟨rest, hrequests, hrest⟩ := requestCodec.encodeAll_split hmore
      have hcount := congrArg List.length hrequests
      simp only [List.length_append] at hcount
      obtain rfl := hstop.ok_of_stream hrest (by
        rw [hpending]
        simp only [List.length_append, List.length_map]
        omega)
      rfl

/-- A send that does not fail keeps the client. -/
theorem writeClient_stays {outcome : SendOutcome} {iteration : Iteration}
    (houtcome : outcome ≠ .failed) (h : writeClient w i outcome = some (iteration, w')) :
    iteration ≠ .failed := by
  cases writeClient_wrote h with
  | failed => exact absurd rfl houtcome
  | nothing | interrupted | wouldBlock | sent _ _ => decide

/-- Running a request does not fail either: the output buffer is empty and takes any response. -/
theorem processQueue_stays (hv : w.Valid host) (released : Bool) :
    Stays w (processQueue host w .fair released).2 := by
  have hspec := processQueue_spec hv .fair released
  generalize processQueue host w .fair released = result at hspec ⊢
  cases hspec with
  | waits _ => exact .refl
  | answered hqueue _ hfd _ _ => exact (touches_afterDequeue hv hqueue hfd _).stays
  | @failed first rest i output e _ hi _ hempty hencode =>
      obtain ⟨output', hroom⟩ := Response.encodeCommandResponse_of_room host first.type
        first.argument hempty (hv.client i hi).output_limit
      cases hencode.symm.trans hroom

theorem continueVisit_stays {entry : PollEntry} {listener : Revents} {todo : List PollEntry}
    {next : Pc} {released : Bool} {iteration : Iteration} (ht : Touches entry.slot s.world w')
    (hne : iteration ≠ .failed) :
    Stays s.world (continueVisit s entry listener todo next released (iteration, w')).world := by
  cases iteration with
  | again => exact ht.stays
  | done => exact ht.stays
  | failed => exact absurd rfl hne

/-- An undisturbed read of the client that is not the end of its stream does not fail. -/
theorem OnItsOwn.reads {outcome : ReadOutcome} {env : ReadEnv} {released : Bool}
    {iteration : Iteration} (hown : OnItsOwn requests c s) (hs : s.Valid host) (hi : s.world.Live i)
    (hlen : requests.length ≤ maxQueuedRequests)
    (hcond : undisturbed requests c shut s (.read outcome env released) = true)
    (heof : outcome ≠ .eof) (hread : readClient s.world i outcome env = some (iteration, w')) :
    iteration = if outcome = .wouldBlock then .done else .again := by
  cases outcome with
  | eof => exact absurd rfl heof
  | failed => cases hcond
  | interrupted | wouldBlock => cases readClient_read hs.world hi hread; rfl
  | data bytes =>
      simp only [undisturbed, Bool.and_eq_true, decide_eq_true_eq] at hcond
      obtain ⟨rfl, hstream⟩ := hcond
      have hconn := hown.only i hi
      have halone : ∀ j, s.world.Live j → j = i := fun j hj =>
        hs.world.conn_inj j i hj hi ((hown.only j hj).trans hconn.symm)
      exact readClient_stays hs.world hi halone hlen (hconn ▸ hstream) hread

/-- **The client is removed only at the end of its stream.** -/
theorem Move.stays (hmove : Move host s e s') (hs : s.Valid host) (hown : OnItsOwn requests c s)
    (hlen : requests.length ≤ maxQueuedRequests) (hcond : undisturbed requests c shut s e = true)
    (heof : ∀ env released, e ≠ .read .eof env released) : Stays s.world s'.world := by
  have hw := hs.world
  have hpc := hs.pc
  have hcalm := hown.calm
  cases hmove with
  | @process stop w env released again w' hprocess =>
      have hfair : env = .fair := by simpa [undisturbed] using hcond
      have hstays := processQueue_stays hw released
      rw [← hfair, hprocess] at hstays
      exact hstays
  | @read entry listener todo stop w outcome env released result hread =>
      obtain ⟨iteration, w'⟩ := result
      apply continueVisit_stays (readClient_spec hw hpc.1.1 hread).1
      rw [hown.reads hs hpc.1.1 hlen hcond (fun h => heof env released (by rw [h])) hread]
      split <;> decide
  | @send entry listener todo stop w outcome released result hsend =>
      obtain ⟨iteration, w'⟩ := result
      apply continueVisit_stays (writeClient_spec hw hpc.1.1 hsend).1
      apply writeClient_stays _ hsend
      rintro rfl
      cases hcond
  | check =>
      rw [if_neg (by simp [hcalm.1])]
      exact .refl
  | accept haccept =>
      rcases acceptClients_arrival haccept with rfl | ⟨fd, rfl, -⟩
      · exact .refl
      · cases hcond
  | close _ => exact hcalm.elim
  | closed _ => exact .refl
  | shutdown => exact hcalm.elim
  | _ => exact .refl

/-- The end of the stream removes the client. -/
theorem Move.eof {env : ReadEnv} {released : Bool} (hs : s.Valid host)
    (hmove : Move host s (.read .eof env released) s') :
    ∃ entry listener todo, s.pc = .visiting .read entry listener todo ∧
      s'.world = removeClient s.world entry.slot released := by
  cases hmove with
  | @read entry listener todo stop w _ _ _ result hread =>
      refine ⟨entry, listener, todo, rfl, ?_⟩
      cases readClient_read hs.world hs.pc.1.1 hread with
      | eof => rfl

end WireCommand.Uds
