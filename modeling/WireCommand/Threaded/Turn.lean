import WireCommand.Foundation.Measure
import WireCommand.Threaded.Limits

/-!
# A worker that is not disturbed

What a worker does when no call fails, no allocation fails and nobody asks the server to stop. Then
there is only one thing left that could make it leave its loop, a malformed request, and `step_turn`
says that without one it stays: every step keeps the invariants, and moves some bytes or comes
closer to a call that does, unless the call was made in vain.

`Balanced.of_front` says where such a worker stands when all it has read is a front of one request:
it still holds that front, or it has answered the request.
-/

namespace WireCommand.Threaded

open Foundation Foundation.Framing Protocol

/-- Both servers have the limits of the protocol. -/
theorem Transport.limits (transport : Transport) :
    transport.config.inputLimit = uint16Max ∧
      transport.config.outputLimit = Response.outputLimit ∧ 0 < transport.config.readSize := by
  cases transport <;> exact ⟨rfl, rfl, by decide⟩

namespace Session

/-! ## What is left to the environment -/

/-- No call fails, there is memory, and nobody stops the server. A `poll` that succeeds finds
something, and nothing broken. -/
def Event.smooth : Event → Bool
  | .stopTest stopping => !stopping
  | .process env => env = .fair
  | .poll .interrupted => true
  | .poll .timeout => true
  | .poll (.ready revents) => !revents.broken && (revents.pollIn || revents.pollOut)
  | .read (.data _) reallocOk => reallocOk
  | .read .interrupted reallocOk => reallocOk
  | .read .wouldBlock reallocOk => reallocOk
  | .send (.sent _) => true
  | .send .interrupted => true
  | .send .wouldBlock => true
  | .tick => true
  | _ => false

/-- A call was made in vain. -/
def Event.idle : Event → Bool
  | .poll .interrupted => true
  | .poll .timeout => true
  | .read .interrupted _ => true
  | .read .wouldBlock _ => true
  | .send .interrupted => true
  | .send .wouldBlock => true
  | _ => false

/-- The bytes the event brings. -/
def Event.arrived : Event → Bytes
  | .read (.data bytes) _ => bytes
  | _ => []

/-! ## The invariant of an undisturbed worker -/

/-- The worker is in its loop, has found nothing broken, and reads or sends only what it polled
for. -/
def Calm (s : State) : Pc → Prop
  | .polling events => events = pollEvents s.output
  | .reading revents => revents.pollOut = false ∧ revents.broken = false
  | .writing revents => 0 < s.output.length ∧ revents.broken = false
  | .checking revents => revents.broken = false
  | .left _ => False
  | _ => True

/-- The invariants of a worker that is not disturbed. -/
structure State.Ok (config : Config) (host : Host) (s : State) : Prop where
  valid : s.Valid host
  within : s.Within config
  calm : Calm s s.pc

theorem ok_start (transport : Transport) (host : Host) :
    (State.start transport.config).Ok transport.config host :=
  ⟨(workerMain_inductive transport host).init _ rfl, (within_inductive transport host).init _ rfl,
    trivial⟩

variable {config : Config} {host : Host} {s s' : State} {e : Event}

theorem State.Ok.inLoop (h : s.Ok config host) : s.pc.InLoop := by
  have hcalm := h.calm
  cases hpc : s.pc with
  | left exit => rw [hpc] at hcalm; exact hcalm.elim
  | _ => trivial

theorem State.Ok.balanced (h : s.Ok config host) : Balanced host s := by
  have hcalm := h.calm
  apply h.valid.balanced
  cases hpc : s.pc with
  | left exit => rw [hpc] at hcalm; exact hcalm.elim
  | _ => trivial

/-- What a `poll` that found something leads to. -/
theorem calm_ready {revents : Revents} (hanswers : revents.answers (pollEvents s.output) = true)
    (hwhole : revents.broken = false) {pc : Pc}
    (hpc : pc = if revents.pollIn then .reading revents else afterRead revents) : Calm s pc := by
  obtain ⟨pollIn, pollOut, pollErr, pollHup, pollNval⟩ := revents
  subst hpc
  unfold pollEvents at hanswers
  unfold afterRead
  by_cases hlen : s.output.length > 0
  · rw [if_pos hlen] at hanswers
    cases pollIn with
    | true => cases hanswers
    | false =>
        cases pollOut with
        | true => exact ⟨hlen, hwhole⟩
        | false => exact hwhole
  · rw [if_neg hlen] at hanswers
    cases pollOut with
    | true => simp [Revents.answers] at hanswers
    | false =>
        cases pollIn with
        | true => exact ⟨rfl, hwhole⟩
        | false => exact hwhole

/-! ## One step -/

/-- What the worker has moved. -/
def State.traffic (s : State) : Nat := s.received.length + s.sent.length

/-- How many steps the worker is away from the next call that moves something. -/
def Pc.rank : Pc → Nat
  | .checking _ => 5
  | .loopTest => 4
  | .processing => 3
  | .polling _ => 2
  | .reading _ => 1
  | .writing _ => 1
  | .left _ => 0

/-- What a step does beyond keeping the invariants. -/
structure Turn (s : State) (e : Event) (s' : State) : Prop where
  calm : Calm s' s'.pc
  received : s'.received = s.received ++ e.arrived
  sent : s.sent <+: s'.sent
  pays : Pays 5 s.pc.rank s.traffic s'.pc.rank s'.traffic e.idle

/-- A step that moves nothing. -/
theorem Turn.still (hcalm : Calm s' s'.pc) (hreceived : s'.received = s.received)
    (hsent : s'.sent = s.sent) (harrived : e.arrived = [])
    (hrank : s'.pc.rank + 1 ≤ s.pc.rank + if e.idle then 5 else 0) : Turn s e s' := by
  refine ⟨hcalm, ?_, ?_, pays_of_still ?_ hrank⟩
  · rw [hreceived, harrived, List.append_nil]
  · exact hsent ▸ List.prefix_rfl
  · rw [State.traffic, State.traffic, hreceived, hsent]

/-- With memory and room, a request that is not malformed is processed. -/
theorem processRequest_smooth (transport : Transport) (host : Host) {input output : Buffer}
    (hempty : output.data = []) (hmax : output.maxSize = Response.outputLimit)
    (hvalid : requestVerdict input.data ≠ .invalid) :
    ∃ input' output', transport.processRequest host input output .fair =
      (.ok (), input', output') := by
  rw [transport.processRequest_eq, processRequest]
  cases hparse : requestVerdict input.data with
  | needMore => exact ⟨_, _, rfl⟩
  | invalid => exact absurd hparse hvalid
  | complete request consumed =>
      obtain ⟨output', hencode⟩ := Response.encodeCommandResponse_of_room host request.type
        request.argument hempty hmax
      obtain ⟨rfl, rest, hdata⟩ := requestVerdict_complete hparse
      obtain ⟨input', hconsume⟩ := Buffer.consume_of_le input request.frame.length
        (by rw [hdata, List.length_append]; omega)
      refine ⟨input', output', ?_⟩
      have hencode' : encodeResponse runCommand host output request .fair = (.ok (), output') :=
        hencode
      simp only [hencode', hconsume]

theorem turn_ready {revents : Revents} {events : Events} (hpc : s.pc = .polling events)
    (hcalm : events = pollEvents s.output) (hanswers : revents.answers events = true)
    (hsmooth : (Event.poll (.ready revents)).smooth = true) :
    Turn s (.poll (.ready revents))
      { s with pc := if revents.pollIn then .reading revents else afterRead revents } := by
  simp only [Event.smooth, Bool.and_eq_true, Bool.not_eq_true', Bool.or_eq_true] at hsmooth
  obtain ⟨hwhole, hfound⟩ := hsmooth
  rw [hcalm] at hanswers
  refine Turn.still (calm_ready hanswers hwhole rfl) rfl rfl rfl ?_
  -- the next call reads or sends
  rw [hpc]
  show Pc.rank (if revents.pollIn then .reading revents else afterRead revents) + 1 ≤ 2
  unfold afterRead
  rcases hfound with hfound | hfound
  · rw [if_pos hfound]
    exact Nat.le_refl _
  · rw [if_pos hfound]
    split <;> exact Nat.le_refl _

theorem turn_read {outcome : ReadOutcome} {revents : Revents} {result : Option Exit × State}
    (hpc : s.pc = .reading revents) (hcalm : revents.pollOut = false ∧ revents.broken = false)
    (hroom : HasRoom s.input config.readSize) (hsmooth : (Event.read outcome true).smooth = true)
    (h : readClient config s outcome true = some result) :
    Turn s (.read outcome true) (continueWith (afterRead revents) result) := by
  have hrank : s.pc.rank = 1 := by rw [hpc]; rfl
  have hnext : afterRead revents = .checking revents := by rw [afterRead, hcalm.1]; rfl
  rw [hnext]
  unfold readClient at h
  rw [if_neg hroom.readSize_ne] at h
  cases outcome with
  | eof => cases hsmooth
  | failed => cases hsmooth
  | interrupted =>
      cases h
      refine Turn.still hcalm.2 rfl rfl rfl ?_
      rw [hrank]
      exact Nat.le_refl 6
  | wouldBlock =>
      cases h
      refine Turn.still hcalm.2 rfl rfl rfl ?_
      rw [hrank]
      exact Nat.le_refl 6
  | data bytes =>
      simp only at h
      split at h
      · next hbytes =>
          obtain ⟨input, happend⟩ := Buffer.append_of_nextReadSize hbytes.2
          simp only [happend] at h
          cases h
          refine ⟨hcalm.2, rfl, List.prefix_rfl, pays_of_moved ?_ ?_⟩
          · simp only [State.traffic, continueWith, List.length_append]
            omega
          · rw [hrank]
            exact Nat.le_add_left 5 1
      · cases h

theorem turn_send {outcome : SendOutcome} {revents : Revents} {result : Option Exit × State}
    (hpc : s.pc = .writing revents) (hwhole : revents.broken = false)
    (hsmooth : (Event.send outcome).smooth = true) (h : writeClient s outcome = some result) :
    Turn s (.send outcome) (continueWith (.checking revents) result) := by
  have hrank : s.pc.rank = 1 := by rw [hpc]; rfl
  cases outcome with
  | failed => cases hsmooth
  | interrupted =>
      cases h
      refine Turn.still hwhole rfl rfl rfl ?_
      rw [hrank]
      exact Nat.le_refl 6
  | wouldBlock =>
      cases h
      refine Turn.still hwhole rfl rfl rfl ?_
      rw [hrank]
      exact Nat.le_refl 6
  | sent count =>
      simp only [writeClient] at h
      split at h
      · next hcount =>
          obtain ⟨output, hconsume⟩ := Buffer.consume_of_le s.output count hcount.2
          simp only [hconsume] at h
          cases h
          refine ⟨hwhole, by simp [Event.arrived, continueWith], List.prefix_append _ _,
            pays_of_moved ?_ ?_⟩
          · have hle : count ≤ s.output.data.length := hcount.2
            simp only [State.traffic, continueWith, List.length_append, List.length_take]
            omega
          · rw [hrank]
            exact Nat.le_add_left 5 1
      · cases h

/-- A round in which nothing broke goes on. -/
theorem afterChecks_of_whole {revents : Revents} (hwhole : revents.broken = false) :
    afterChecks s revents = .loopTest := by
  simp only [Revents.broken, Bool.or_eq_false_iff] at hwhole
  obtain ⟨⟨herr, hhup⟩, hnval⟩ := hwhole
  simp [afterChecks, herr, hhup, hnval]

/-- **An undisturbed worker stays in its loop and gets on.** -/
theorem Move.turn {transport : Transport} (hmove : Move transport host s e s')
    (hok : s.Ok transport.config host) (hvalid : requestVerdict s.input.data ≠ .invalid)
    (hsmooth : e.smooth = true) : Turn s e s' := by
  obtain ⟨hinput, houtput, hsize⟩ := transport.limits
  have hcalm := hok.calm
  have hmax := hok.within.output.trans houtput
  cases hmove with
  | @stopTest stopping hpc =>
      cases stopping with
      | true => cases hsmooth
      | false =>
          refine Turn.still trivial rfl rfl rfl ?_
          rw [hpc]
          exact Nat.le_refl 4
  | @refused env errno input output hpc hempty hprocess =>
      obtain rfl : env = .fair := by simpa [Event.smooth] using hsmooth
      obtain ⟨input', output', hprocessed⟩ := processRequest_smooth transport host hempty hmax hvalid
      rw [hprocess] at hprocessed
      cases hprocessed
  | processed hpc hempty hprocess =>
      refine Turn.still rfl rfl rfl rfl ?_
      rw [hpc]
      exact Nat.le_refl 3
  | undrained hpc hlen =>
      refine Turn.still rfl rfl rfl rfl ?_
      rw [hpc]
      exact Nat.le_refl 3
  | pollAgain hpc houtcome =>
      rcases houtcome with rfl | rfl
      · refine Turn.still trivial rfl rfl rfl ?_
        rw [hpc]
        exact Nat.le_add_right 5 2
      · refine Turn.still trivial rfl rfl rfl ?_
        rw [hpc]
        exact Nat.le_add_right 5 2
  | pollFailed hpc => cases hsmooth
  | ready hpc hanswers =>
      rw [hpc] at hcalm
      exact turn_ready hpc hcalm hanswers hsmooth
  | @read revents outcome reallocOk result hpc hread =>
      have hrealloc : reallocOk = true := by
        cases outcome <;> first | exact hsmooth | cases hsmooth
      subst hrealloc
      have hidle := hok.valid.pc
      rw [hpc] at hcalm hidle
      have hroom := hasRoom_of_needMore hsize (hok.within.input.trans hinput) hidle.2
      exact turn_read hpc hcalm hroom hsmooth hread
  | send hpc hsend =>
      rw [hpc] at hcalm
      exact turn_send hpc hcalm.2 hsmooth hsend
  | checked hpc =>
      rw [hpc] at hcalm
      rw [afterChecks_of_whole hcalm]
      refine Turn.still trivial rfl rfl rfl ?_
      rw [hpc]
      exact Nat.le_refl 5

/-- It also keeps its invariants. -/
theorem step_turn (transport : Transport) (hok : s.Ok transport.config host)
    (hvalid : requestVerdict s.input.data ≠ .invalid) (hsmooth : e.smooth = true)
    (h : step transport host s e = some s') :
    s'.Ok transport.config host ∧ Turn s e s' := by
  have hmove := step_move h
  have hturn := hmove.turn hok hvalid hsmooth
  exact ⟨⟨hmove.valid hok.valid, hmove.within hok.within, hturn.calm⟩, hturn⟩

/-! ## A worker that has read a front of one request -/

/-- **One request is held or answered.** -/
theorem Balanced.of_front {r : Request} {missing : Bytes} (h : Balanced host s)
    (hfront : r.frame = s.received ++ missing) :
    (s.input.data = s.received ∧ s.sent = [] ∧ s.output.data = []) ∨
      (s.input.data = [] ∧ missing = [] ∧ s.sent ++ s.output.data = respond host r) := by
  obtain ⟨answered, hledger⟩ := h
  have hreceived := hledger.received_eq
  have hsent := hledger.sent_eq
  have hsplit : requestCodec.encode r =
      requestCodec.encodeAll answered ++ (s.input.data ++ missing) := by
    rw [List.append_nil] at hreceived
    rw [← List.append_assoc, ← hreceived]
    exact hfront
  rcases requestCodec.encode_split hsplit with ⟨rfl, -⟩ | ⟨rfl, hrest⟩
  · rw [List.flatMap_nil, List.append_eq_nil_iff] at hsent
    exact .inl ⟨hreceived.symm, hsent⟩
  · rw [List.append_eq_nil_iff] at hrest
    exact .inr ⟨hrest.1, hrest.2, by simpa using hsent⟩

/-- What such a worker holds is not malformed. -/
theorem Balanced.verdict_of_front {r : Request} {missing : Bytes} (h : Balanced host s)
    (hfront : r.frame = s.received ++ missing) : requestVerdict s.input.data ≠ .invalid := by
  rcases h.of_front hfront with ⟨hinput, -⟩ | ⟨hinput, -⟩
  · rw [hinput]
    intro hinvalid
    have hwhole := requestVerdict_invalid_append missing hinvalid
    rw [← hfront] at hwhole
    have hframe := requestCodec.parse_encode r []
    rw [List.append_nil] at hframe
    cases hframe.symm.trans hwhole
  · rw [hinput]
    decide

end Session

end WireCommand.Threaded
