import WireCommand.Exchange
import WireCommand.Foundation.Network
import WireCommand.Threaded.Service
import WireCommand.Uds.Service

/-!
# Clients and servers

The whole system: one of the three servers, any number of clients, each with a request of its own, and
any number of other peers, which write whatever they like. Every call on either side may fail, and
streams may end at any time.

What a client can rely on is `Served`: its request is run at most once; what it prints is a front of
the payload of its own response, and nothing of anybody else's; when it reports success its request
has been run exactly once and the payload is printed completely; and it never takes what it has read
for malformed. The servers contribute that they implement the request service, and the clients their
invariant `Client.Holds`; `clients_served` puts the two together.
-/

namespace WireCommand.Client

open Foundation Protocol

variable {frame : Bytes} {payload : Payload} {s s' : State} {e : Event}

/-! ## A client that may be disturbed -/

/-- The client has a whole response. -/
def Pc.hasResponse : Pc → Bool
  | .printing _ _ => true
  | .finished (.ok ()) => true
  | _ => false

/-- The client is on its way from its request to the response, or has given up. -/
structure Holds (frame : Bytes) (payload : Payload) (s : State) : Prop where
  sent : s.sent <+: frame
  stdout : s.stdout <+: payload.val
  way : Ok frame payload s ∨ ∃ errno, s.pc = .finished (.error errno)
  whole : s.pc.hasResponse = true ∨ s.stdout ≠ [] → s.received = responseFrame payload

/-- On its way, without a response. -/
theorem Ok.holds (h : Ok frame payload s) (hpc : s.pc.hasResponse = false) (hstdout : s.stdout = []) :
    Holds frame payload s where
  sent := h.fronts.1
  stdout := h.fronts.2
  way := .inl h
  whole := by
    rintro (hresponse | hprinted)
    · rw [hpc] at hresponse
      cases hresponse
    · exact absurd hstdout hprinted

/-- On its way, with the response. -/
theorem Ok.holds_whole (h : Ok frame payload s) (hwhole : s.received = responseFrame payload) :
    Holds frame payload s := ⟨h.fronts.1, h.fronts.2, .inl h, fun _ => hwhole⟩

/-- A client that gives up keeps what it has done. -/
theorem Holds.gives_up (h : Holds frame payload s) {errno : Errno} {received : Bytes}
    {input : Buffer} (hreceived : s.stdout ≠ [] → received = s.received) :
    Holds frame payload
      { s with pc := .finished (.error errno), received := received, input := input } where
  sent := h.sent
  stdout := h.stdout
  way := .inr ⟨errno, rfl⟩
  whole := by
    rintro (hresponse | hprinted)
    · cases hresponse
    · exact (hreceived hprinted).trans (h.whole (.inr hprinted))

theorem holds_start {request : Buffer} (hframe : request.data = frame) :
    Holds frame payload (.start request) := by
  refine (ok_start hframe).holds ?_ rfl
  show (sendFrom request 0).hasResponse = false
  unfold sendFrom
  split <;> rfl

theorem holds_write {outcome : WriteOutcome} (h : Holds frame payload s)
    (hok : Ok frame payload s) (hstep : step s (.write outcome) = some s') :
    Holds frame payload s' := by
  simp only [step] at hstep
  split at hstep
  · next total hpc =>
      obtain ⟨result, hwrite, rfl⟩ := Option.map_eq_some_iff.mp hstep
      cases result with
      | error errno => exact h.gives_up fun _ => rfl
      | ok total' =>
          have hpcok := hok.pc
          rw [hpc] at hpcok
          refine (turn_send hok hpc hwrite).ok.holds ?_ hpcok.2.2.1
          show (sendFrom s.request total').hasResponse = false
          unfold sendFrom
          split <;> rfl
  · next data total hpc =>
      obtain ⟨result, hwrite, rfl⟩ := Option.map_eq_some_iff.mp hstep
      cases result with
      | error errno => exact h.gives_up fun _ => rfl
      | ok total' =>
          exact (turn_print hok hpc hwrite).ok.holds_whole (h.whole (.inl (by rw [hpc]; rfl)))
  · cases hstep

/-- **A front of the response is never taken for malformed.** -/
theorem holds_parse (hok : Ok frame payload s) (hfront : s.received <+: responseFrame payload)
    (hstep : step s .parse = some s') :
    Ok frame payload s' ∧ Holds frame payload s' := by
  have hpc : s.pc = .parsing := by
    simp only [step] at hstep
    split at hstep
    · next hpc => exact hpc
    · cases hstep
  obtain ⟨missing, hmissing⟩ := hfront
  obtain ⟨s₁, hstep₁, hturn⟩ := turn_parse hok hpc hmissing.symm
  rw [hstep₁, Option.some.injEq] at hstep
  subst hstep
  refine ⟨hturn.ok, ?_⟩
  have hreceived : s₁.received = s.received := by simpa [Event.arrived] using hturn.received
  by_cases hwhole : missing = []
  · apply hturn.ok.holds_whole
    rw [hreceived, ← hmissing, hwhole, List.append_nil]
  · -- the client reads on, and has printed nothing
    have hpcok := hok.pc
    have hpcok₁ := hturn.ok.pc
    rw [hpc] at hpcok
    obtain ⟨hsent, hstdout, hinput, hmax⟩ := hpcok
    have hinputFront : responseFrame payload = s.input.data ++ missing := by rw [hinput, hmissing]
    have hparse := parseResponse_front hinputFront
    rw [if_neg hwhole] at hparse
    simp only [step, hpc, hparse, Option.map_some, Option.some.injEq] at hstep₁
    subst hstep₁
    simp only [dispatch] at hpcok₁ ⊢
    split
    · next hfull =>
        rw [if_pos hfull] at hpcok₁
        exact absurd hpcok₁.2.1 (by simp)
    · next hroom =>
        rw [if_neg hroom] at hpcok₁
        exact Ok.holds ⟨hok.request, hpcok₁⟩ rfl hstdout

theorem holds_read {outcome : ReadOutcome} {reallocOk : Bool} (h : Holds frame payload s)
    (hok : Ok frame payload s) (hstep : step s (.read outcome reallocOk) = some s') :
    Holds frame payload s' := by
  simp only [step] at hstep
  split at hstep
  · next hpc =>
      have hpcok := hok.pc
      rw [hpc] at hpcok
      obtain ⟨hsent, hstdout, ⟨hinput, hmax⟩, -⟩ := hpcok
      cases outcome with
      | eof =>
          cases hstep
          exact h.gives_up fun _ => rfl
      | failed errno =>
          cases hstep
          exact h.gives_up fun _ => rfl
      | interrupted =>
          cases hstep
          exact Ok.holds ⟨hok.request, hsent, hstdout, hinput, hmax⟩ rfl hstdout
      | data bytes =>
          simp only [readResponse] at hstep
          split at hstep
          · split at hstep
            · cases hstep
              exact h.gives_up fun hprinted => absurd hstdout hprinted
            · next input happend =>
                obtain ⟨hdata, hmax', -⟩ := Buffer.append_ok happend
                cases hstep
                refine Ok.holds ⟨hok.request, hsent, hstdout, ?_, hmax'.trans hmax⟩ rfl hstdout
                show input.data = s.received ++ bytes
                rw [hdata, hinput]
          · cases hstep
  · cases hstep

/-- **Whatever happens to a client**, as long as what it reads is a front of its response. -/
theorem step_holds (h : Holds frame payload s) (hfront : s.received <+: responseFrame payload)
    (hstep : step s e = some s') : Holds frame payload s' := by
  rcases h.way with hok | ⟨errno, hpc⟩
  · cases e with
    | write outcome => exact holds_write h hok hstep
    | parse => exact (holds_parse hok hfront hstep).2
    | read outcome reallocOk => exact holds_read h hok hstep
  · -- a client that has given up does nothing more
    cases e <;> simp [step, hpc] at hstep

/-- Nothing that was written is taken back. -/
theorem sent_grows (hstep : step s e = some s') : s.sent <+: s'.sent := by
  cases e with
  | write outcome =>
      simp only [step] at hstep
      split at hstep
      · obtain ⟨result, -, rfl⟩ := Option.map_eq_some_iff.mp hstep
        cases result with
        | error errno => exact List.prefix_rfl
        | ok total' => exact List.prefix_append _ _
      · obtain ⟨result, -, rfl⟩ := Option.map_eq_some_iff.mp hstep
        cases result with
        | error errno => exact List.prefix_rfl
        | ok total' => exact List.prefix_rfl
      · cases hstep
  | parse =>
      simp only [step] at hstep
      split at hstep
      · obtain ⟨parsed, -, rfl⟩ := Option.map_eq_some_iff.mp hstep
        unfold dispatch
        split
        · exact List.prefix_rfl
        · split <;> exact List.prefix_rfl
      · cases hstep
  | read outcome reallocOk =>
      simp only [step] at hstep
      split at hstep
      · cases outcome with
        | data bytes =>
            simp only [readResponse] at hstep
            split at hstep
            · split at hstep <;> cases hstep <;> exact List.prefix_rfl
            · cases hstep
        | _ => cases hstep; exact List.prefix_rfl
      · cases hstep

end WireCommand.Client

namespace WireCommand

open Foundation Foundation.Framing Foundation.Service Protocol

/-! ## The peers -/

/-- A client that is going to be started: its request, as `main` has encoded it. -/
structure Caller where
  request : Request
  buffer : Buffer
  encoded : ∃ headerOk argumentOk,
    Client.encodeRequest request.type request.argument headerOk argumentOk = (.ok (), buffer)

/-- What is at the other end of a connection: a client, or somebody else. -/
inductive Party where
  | client (s : Client.State)
  | other (written read : Bytes)

/-- What a peer does. -/
inductive PartyEvent where
  | client (e : Client.Event)
  | writes (bytes : Bytes)
  | reads (bytes : Bytes)

/-- A step of a client, or anything that somebody else likes to write and to read. -/
def Party.step : Party → PartyEvent → Option Party
  | .client s, .client e => (Client.step s e).map .client
  | .other written read, .writes bytes => some (.other (written ++ bytes) read)
  | .other written read, .reads bytes => some (.other written (read ++ bytes))
  | _, _ => none

/-- The bytes a peer has written. -/
def Party.written : Party → Bytes
  | .client s => s.sent
  | .other written _ => written

/-- The bytes a peer has read. -/
def Party.read : Party → Bytes
  | .client s => s.received
  | .other _ read => read

theorem Party.written_grows {p p' : Party} {e : PartyEvent} (h : p.step e = some p') :
    p.written <+: p'.written := by
  cases p with
  | client s =>
      cases e with
      | client e =>
          obtain ⟨s', hstep, rfl⟩ := Option.map_eq_some_iff.mp h
          exact Client.sent_grows hstep
      | writes bytes => cases h
      | reads bytes => cases h
  | other written read =>
      cases e with
      | client e => cases h
      | writes bytes => cases h; exact List.prefix_append _ _
      | reads bytes => cases h; exact List.prefix_rfl

/-- The peers of a server. -/
def parties : Peer Party PartyEvent UInt8 := ⟨Party.step, Party.written, Party.read, Party.written_grows⟩

/-- The clients when they begin to write, and the others. -/
def Party.start : Option Caller → Party
  | some caller => .client (.start caller.buffer)
  | none => .other [] []

/-! ## The networks -/

/-- The poll server with its peers; `callers` says which connections are those of clients. -/
def pollNetwork (host : Host) (callers : Nat → Option Caller) :
    StepSystem (Network Uds.State Party Request UInt8 Nat) (NetworkEvent Uds.Event PartyEvent Nat) :=
  network (Uds.step host) Uds.observe parties (Uds.server host).init fun c => .start (callers c)

/-- A threaded server with its peers. -/
def threadedNetwork (transport : Threaded.Transport) (host : Host) (callers : Nat → Option Caller) :
    StepSystem (Network Threaded.Server.State Party Request UInt8 Nat)
      (NetworkEvent Threaded.Server.Event PartyEvent Nat) :=
  network (Threaded.Server.step transport host)
    (fun s e _ => Threaded.Server.observe transport s e) parties (transport.server host).init
    fun c => .start (callers c)

/-! ## What a client can rely on -/

/-- What is known of a client and of its connection, in whatever state the two are. -/
structure Served (host : Host) (r : Request) (x : Connection Request UInt8) (s : Client.State) :
    Prop where
  at_most_once : x.ran = [] ∨ x.ran = [r]
  /-- What is printed belongs to the response to this request. -/
  printed : s.stdout <+: Response.payload host r.type r.argument
  ran_of_printed : s.stdout ≠ [] → x.ran = [r]
  success : s.pc = .finished (.ok ()) →
    x.ran = [r] ∧ s.stdout = Response.payload host r.type r.argument
  /-- What has been read is never taken for malformed. -/
  understood : ∀ s', Client.step s .parse = some s' → ∀ errno, s'.pc ≠ .finished (.error errno)

variable {host : Host} {callers : Nat → Option Caller}

theorem Caller.frame (caller : Caller) : caller.buffer.data = caller.request.frame := by
  obtain ⟨headerOk, argumentOk, hencode⟩ := caller.encoded
  obtain ⟨r, hcode, hargument, hdata, -⟩ := encodeRequest_ok hencode
  have htype : r.type = caller.request.type := RequestType.code_injective (Int.ofNat.inj hcode)
  have hr : r = caller.request := Request.ext htype hargument
  rw [← hr]
  simpa using hdata

/-- The invariant of a peer. -/
def PartyOk (host : Host) (caller : Option Caller) (p : Party) : Prop :=
  ∀ r, caller.map Caller.request = some r →
    ∃ s, p = .client s ∧ Client.Holds r.frame (Exchange.answer host r) s

theorem partyOk_start (caller : Option Caller) : PartyOk host caller (.start caller) := by
  intro r hr
  obtain ⟨c, rfl, rfl⟩ := Option.map_eq_some_iff.mp hr
  exact ⟨_, rfl, Client.holds_start c.frame⟩

/-- What a client reads from its connection is a front of its response. -/
theorem response_front {r : Request} {x : Connection Request UInt8} {s : Client.State}
    (hx : x.Ok requestCodec (respond host)) (hsent : s.sent <+: r.frame)
    (hup : x.received <+: s.sent) (hdown : s.received <+: x.sent) :
    s.received <+: responseFrame (Exchange.answer host r) := by
  rw [← Exchange.respond_eq]
  rcases hx.single (hup.trans hsent) with ⟨-, hnone⟩ | ⟨-, -, hfront⟩
  · rw [hnone] at hdown
    exact hdown.trans List.nil_prefix
  · exact hdown.trans hfront

theorem partyOk_step {caller : Option Caller} {p p' : Party} {e : PartyEvent}
    {x : Connection Request UInt8} (h : PartyOk host caller p) (hstep : p.step e = some p')
    (hx : x.Ok requestCodec (respond host)) (hup : x.received <+: p.written)
    (hdown : p.read <+: x.sent) : PartyOk host caller p' := by
  intro r hr
  obtain ⟨s, rfl, hholds⟩ := h r hr
  cases e with
  | client e =>
      obtain ⟨s', hclient, rfl⟩ := Option.map_eq_some_iff.mp hstep
      exact ⟨s', rfl, Client.step_holds hholds (response_front hx hholds.sent hup hdown) hclient⟩
  | writes bytes => cases hstep
  | reads bytes => cases hstep

/-- A client that is in order has been served. -/
theorem served_of_holds {r : Request} {x : Connection Request UInt8} {s : Client.State}
    (hholds : Client.Holds r.frame (Exchange.answer host r) s)
    (hx : x.Ok requestCodec (respond host)) (hup : x.received <+: s.sent)
    (hdown : s.received <+: x.sent) : Served host r x s := by
  have hsingle := hx.single (hup.trans hholds.sent)
  -- a client with a whole response has got it from the server, which so has run the request
  have hran : s.received = responseFrame (Exchange.answer host r) → x.ran = [r] := by
    intro hwhole
    rcases hsingle with ⟨-, hnone⟩ | ⟨hran, -, -⟩
    · rw [hnone, hwhole, ← Exchange.respond_eq, List.prefix_nil] at hdown
      exact absurd hdown (respond_ne_nil host r)
    · exact hran
  refine ⟨?_, hholds.stdout, fun hprinted => hran (hholds.whole (.inr hprinted)), ?_, ?_⟩
  · rcases hsingle with ⟨hran, -⟩ | ⟨hran, -, -⟩
    · exact .inl hran
    · exact .inr hran
  · intro hpc
    refine ⟨hran (hholds.whole (.inl (by rw [hpc]; rfl))), ?_⟩
    rcases hholds.way with hok | ⟨errno, herror⟩
    · have hpcok := hok.pc
      rw [hpc] at hpcok
      exact hpcok.2.2
    · rw [hpc] at herror
      cases herror
  · intro s' hstep errno hpc
    rcases hholds.way with hok | ⟨errno', herror⟩
    · have hpcok := (Client.holds_parse hok (response_front hx hholds.sent hup hdown) hstep).1.pc
      rw [hpc] at hpcok
      cases hpcok.2.1
    · simp [Client.step, herror] at hstep

/-- Every client of a server that implements the request service is served. -/
theorem served_of_simulation {σ ε : Type} {init : σ → Prop} {next : σ → ε → Option σ}
    {label : σ → ε → σ → List (Nat × Observation)} {R : σ → Connections → Prop}
    (hsim : (StepSystem.ofFn init next).Simulation (requestService host) label R)
    {s : Network σ Party Request UInt8 Nat}
    (hs : (network next label parties init fun c => Party.start (callers c)).Reachable s)
    {c : Nat} {caller : Caller} (hcaller : callers c = some caller) :
    ∃ client, s.peers c = .client client ∧ Served host caller.request (s.wire c) client := by
  have hread : ∀ c, parties.read (Party.start (callers c)) = [] := by
    intro c
    cases callers c <;> rfl
  obtain ⟨hlinked, hpeers⟩ := (network_peers (I := fun c => PartyOk host (callers c)) hsim hread
    (fun c => partyOk_start (callers c))
    fun c p e p' x hp hstep hx hup hdown => partyOk_step hp hstep hx hup hdown).reachable hs
  obtain ⟨client, hclient, hholds⟩ := hpeers c caller.request (by rw [hcaller]; rfl)
  have hup := hlinked.upstream c
  have hdown := hlinked.downstream c
  rw [hclient] at hup hdown
  exact ⟨client, hclient, served_of_holds hholds (ok_of_reachable hlinked.reachable c) hup hdown⟩

/-- **Every client is served**, by each of the three servers, in every state that the server, the
clients and the other peers can reach together. -/
theorem clients_served (host : Host) (callers : Nat → Option Caller) :
    (∀ s, (pollNetwork host callers).Reachable s → ∀ c caller, callers c = some caller →
      ∃ client, s.peers c = .client client ∧ Served host caller.request (s.wire c) client) ∧
    (∀ transport s, (threadedNetwork transport host callers).Reachable s →
      ∀ c caller, callers c = some caller →
        ∃ client, s.peers c = .client client ∧ Served host caller.request (s.wire c) client) := by
  constructor
  · intro s hs c caller hcaller
    exact served_of_simulation (Uds.observe_simulation host) hs hcaller
  · intro transport s hs c caller hcaller
    exact served_of_simulation (Threaded.Server.observe_simulation transport host) hs hcaller

/-- The client of a `PWD` request. -/
def pwdCaller : Caller where
  request := pwdRequest
  buffer := (Client.encodeRequest .pwd [] true true).2
  encoded := ⟨true, true, Prod.ext (by decide +kernel) rfl⟩

/-- The poll server has a `PWD` request in hand, and sends the response. -/
def respondRound : List Uds.Event :=
  [.process .fair true, .tick, .poll (.ready .none [.writable]), .tick, .send (.sent 3) true]

/-- A client connects, writes its request in two pieces, and prints the response. -/
def pwdExchange : List (NetworkEvent Uds.Event PartyEvent Nat) :=
  [.peer 0 (.client (.write (.wrote 4)))] ++ Uds.connectRound.map .server ++
  [.peer 0 (.client (.write (.wrote 2)))] ++ (Uds.requestRound ++ respondRound).map .server ++
  [.peer 0 (.client .parse), .peer 0 (.client (.read (.data [0, 1, 47]) true)),
    .peer 0 (.client .parse), .peer 0 (.client (.write (.wrote 1)))]

/-- The peer is a client that has finished with success. -/
def Party.hasSucceeded : Party → Bool
  | .client s => s.pc = .finished (.ok ())
  | .other _ _ => false

/-- A run of the poll server with its peers. -/
theorem pollNetwork_reaches (host : Host) (callers : Nat → Option Caller)
    (es : List (NetworkEvent Uds.Event PartyEvent Nat))
    (test : Network Uds.State Party Request UInt8 Nat → Bool)
    (h : (StepSystem.exec (networkStep (Uds.step host) Uds.observe parties)
      ⟨.start {3} false, fun _ => .fresh, fun c => .start (callers c)⟩ es).any test = true) :
    ∃ s, (pollNetwork host callers).Reachable s ∧ test s = true :=
  StepSystem.exists_reachable ⟨⟨{3}, false, rfl⟩, rfl, rfl⟩ h

/-- One client, and its request is run and answered. -/
theorem clients_served_run : ∃ s client,
    (pollNetwork plainHost fun c => if c = 0 then some pwdCaller else none).Reachable s ∧
    s.peers 0 = .client client ∧ client.pc = .finished (.ok ()) ∧
    (s.wire 0).ran = [pwdRequest] ∧ client.stdout = Response.payload plainHost .pwd [] := by
  obtain ⟨s, hs, htest⟩ := pollNetwork_reaches plainHost
    (fun c => if c = 0 then some pwdCaller else none) pwdExchange
    (fun s => (s.peers 0).hasSucceeded) (by decide +kernel)
  obtain ⟨client, hclient, hserved⟩ := (clients_served plainHost _).1 s hs 0 pwdCaller rfl
  rw [hclient] at htest
  have hpc : client.pc = .finished (.ok ()) := by simpa [Party.hasSucceeded] using htest
  obtain ⟨hran, hstdout⟩ := hserved.success hpc
  exact ⟨s, client, hs, hclient, hpc, hran, hstdout⟩

end WireCommand
