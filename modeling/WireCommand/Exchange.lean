import WireCommand.Client
import WireCommand.Threaded.Turn

/-!
# A client and its worker

One request and its response, end to end: the client and the worker of a threaded server, connected
by a channel of bytes in each direction. Each side writes as many bytes as the channel takes and
reads as many as are there, so the two directions may be cut in any way, and the two sides take
their steps in any order. Calls may be interrupted and `poll` may promise too much; what is excluded
is that a call or an allocation fails, or that the server is stopped.

Five limits have to fit together for this to work, two in the client and three in the server, each
at its own extreme. That they do is `exchange_delivers`:

* the invariant `Ok` ties what one side has written to what the other has read, so that the worker
  always holds a front of the request and the client a front of the response, and neither meets a
  limit;
* as long as the client has not finished, one of the two can move (`Ok.progress`);
* every move counts (`step_ok`), so there is no way to go on for ever but by interruptions.
-/

namespace WireCommand.Exchange

open Foundation Protocol Threaded

/-! ## The model -/

/-- How many bytes may be under way in each direction. -/
structure Network where
  upstream : Nat
  downstream : Nat
  upstream_pos : 0 < upstream
  downstream_pos : 0 < downstream

/-- A client, a worker, and what is under way between them. -/
structure State where
  client : Client.State
  worker : Session.State
  upstream : Bytes
  downstream : Bytes

/-- The client is connected, with its request encoded, and the worker has been started. -/
def State.start (transport : Transport) (request : Buffer) : State where
  client := .start request
  worker := .start transport.config
  upstream := []
  downstream := []

/-- A step of one of the two. -/
inductive Event where
  | client (e : Client.Event)
  | worker (e : Session.Event)

/-- No call fails, there is memory, and nobody stops the server. That the stream of the client ends
is the worker's doing. -/
def Event.smooth : Event → Bool
  | .client (.read .eof _) => true
  | .client e => e.smooth
  | .worker e => e.smooth

/-- A call was made in vain. -/
def Event.idle : Event → Bool
  | .client e => e.idle
  | .worker e => e.idle

/-- What the network allows: a channel takes what it has room for and gives what is under way, and
the stream ends when the peer has left. -/
def Network.allows (network : Network) (s : State) : Event → Bool
  | .client (.write (.wrote count)) =>
      match s.client.pc with
      | .sending _ => s.upstream.length + count ≤ network.upstream
      | _ => true
  | .client (.read (.data bytes) _) => bytes.isPrefixOf s.downstream
  | .client (.read .eof _) =>
      match s.worker.pc with
      | .left _ => s.downstream.isEmpty
      | _ => false
  | .worker (.read (.data bytes) _) => bytes.isPrefixOf s.upstream
  | .worker (.send (.sent count)) => s.downstream.length + count ≤ network.downstream
  | _ => true

/-- The client has finished, and the exchange is over. -/
def State.over (s : State) : Bool :=
  match s.client.pc with
  | .finished _ => true
  | _ => false

/-- One step: what a side has written is under way, and what it has read no longer is. -/
def step (transport : Transport) (host : Host) (network : Network) (s : State) (e : Event) :
    Option State :=
  if s.over = false ∧ e.smooth = true ∧ network.allows s e = true then
    match e with
    | .client e => (Client.step s.client e).map fun client => { s with
        client := client
        upstream := s.upstream ++ client.sent.drop s.client.sent.length
        downstream := s.downstream.drop (client.received.length - s.client.received.length) }
    | .worker e => (Session.step transport host s.worker e).map fun worker => { s with
        worker := worker
        upstream := s.upstream.drop (worker.received.length - s.worker.received.length)
        downstream := s.downstream ++ worker.sent.drop s.worker.sent.length }
  else
    none

/-- The exchange of one request. -/
def exchange (transport : Transport) (host : Host) (network : Network) (request : Buffer) :
    StepSystem State Event :=
  .ofFn (fun s => s = .start transport request) (step transport host network)

/-! ## The invariant -/

/-- What the server produces for a request. -/
def answer (host : Host) (r : Request) : Payload :=
  ⟨Response.payload host r.type r.argument, Response.payload_length host r.type r.argument⟩

theorem respond_eq (host : Host) (r : Request) :
    respond host r = responseFrame (answer host r) := rfl

/-- Client and worker are in order, and what one has written the other has read, but for what is
under way. -/
structure Ok (transport : Transport) (host : Host) (r : Request) (s : State) : Prop where
  client : Client.Ok r.frame (answer host r) s.client
  worker : s.worker.Ok transport.config host
  upstream : s.client.sent = s.worker.received ++ s.upstream
  downstream : s.worker.sent = s.client.received ++ s.downstream

variable {transport : Transport} {host : Host} {network : Network} {r : Request} {s s' : State}
  {e : Event}

theorem ok_start {request : Buffer} (hframe : request.data = r.frame) :
    Ok transport host r (.start transport request) :=
  ⟨Client.ok_start hframe, Session.ok_start transport host, rfl, rfl⟩

/-- The worker has read a front of the request. -/
theorem Ok.request_front (h : Ok transport host r s) :
    ∃ rest, r.frame = s.worker.received ++ (s.upstream ++ rest) := by
  obtain ⟨⟨rest, hrest⟩, -⟩ := h.client.fronts
  refine ⟨rest, ?_⟩
  rw [← hrest, h.upstream, List.append_assoc]

/-- The client has received a front of the response. -/
theorem Ok.response_front (h : Ok transport host r s) :
    ∃ rest, responseFrame (answer host r) = s.client.received ++ (s.downstream ++ rest) := by
  obtain ⟨_, hfront⟩ := h.request_front
  rcases h.worker.balanced.of_front hfront with ⟨-, hsent, -⟩ | ⟨-, -, hsent⟩
  · -- nothing has been answered
    have hnone := h.downstream
    rw [hsent, List.nil_eq, List.append_eq_nil_iff] at hnone
    rw [hnone.1, hnone.2]
    exact ⟨_, rfl⟩
  · refine ⟨s.worker.output.data, ?_⟩
    rw [← respond_eq, ← hsent, h.downstream, List.append_assoc]

/-! ## One step -/

/-- All that has been moved. -/
def State.traffic (s : State) : Nat := s.client.traffic + s.worker.traffic

/-- All that there is to move: the request and the response are written and read once each, and the
payload is printed. -/
def work (host : Host) (r : Request) : Nat :=
  2 * r.frame.length + 2 * (respond host r).length + (answer host r).val.length

/-- No more is moved than there is. -/
theorem Ok.traffic_le (h : Ok transport host r s) : s.traffic ≤ work host r := by
  obtain ⟨hsent, hstdout⟩ := h.client.fronts
  obtain ⟨_, hrequest⟩ := h.request_front
  obtain ⟨_, hresponse⟩ := h.response_front
  have hup := congrArg List.length hrequest
  have hdown := congrArg List.length hresponse
  have hworker := congrArg List.length h.downstream
  have hclient := hsent.length_le
  have hprinted := hstdout.length_le
  simp only [List.length_append] at hup hdown hworker
  unfold State.traffic Client.State.traffic Session.State.traffic work
  rw [respond_eq]
  omega

/-- What is still to be moved, and how far the two are from moving it. -/
def measure (host : Host) (r : Request) (s : State) : Nat :=
  6 * (work host r - s.traffic) + s.client.pc.rank + s.worker.pc.rank

/-- What one side has written is what the other has read and what is under way, when it writes
on. -/
theorem written {sent sent' received way : Bytes} (h : sent = received ++ way)
    (hsent : sent <+: sent') : sent' = received ++ (way ++ sent'.drop sent.length) := by
  obtain ⟨bytes, rfl⟩ := hsent
  rw [List.drop_left, ← List.append_assoc, ← h]

/-- The same when the other side reads on. -/
theorem read {sent received received' way bytes : Bytes} (h : sent = received ++ way)
    (hreceived : received' = received ++ bytes) (hbytes : bytes <+: way) :
    sent = received' ++ way.drop (received'.length - received.length) := by
  obtain ⟨rest, rfl⟩ := hbytes
  rw [hreceived, List.length_append, Nat.add_sub_cancel_left, List.drop_left, h, List.append_assoc]

/-- What the client reads was under way. -/
theorem client_arrived {e : Client.Event} (h : network.allows s (.client e) = true) :
    e.arrived <+: s.downstream := by
  cases e with
  | write outcome => exact List.nil_prefix
  | parse => exact List.nil_prefix
  | read outcome reallocOk =>
      cases outcome with
      | data bytes => exact List.isPrefixOf_iff_prefix.mp h
      | _ => exact List.nil_prefix

/-- What the worker reads was under way. -/
theorem worker_arrived {e : Session.Event} (h : network.allows s (.worker e) = true) :
    e.arrived <+: s.upstream := by
  cases e with
  | read outcome reallocOk =>
      cases outcome with
      | data bytes => exact List.isPrefixOf_iff_prefix.mp h
      | _ => exact List.nil_prefix
  | _ => exact List.nil_prefix

/-- The stream of the client does not end, since the worker has not left. -/
theorem Ok.client_smooth (h : Ok transport host r s) {e : Client.Event}
    (hsmooth : (Event.client e).smooth = true) (hallows : network.allows s (.client e) = true) :
    e.smooth = true := by
  unfold Event.smooth at hsmooth
  split at hsmooth
  · next hevent =>
      cases hevent
      have hloop := h.worker.inLoop
      simp only [Network.allows] at hallows
      split at hallows
      · next hpc =>
          rw [hpc] at hloop
          exact hloop.elim
      · cases hallows
  · next hevent => cases hevent; exact hsmooth
  · next hevent => cases hevent

/-- A step of the client keeps the two in order, and counts. -/
theorem step_client {e : Client.Event} {client : Client.State} (h : Ok transport host r s)
    (hsmooth : (Event.client e).smooth = true) (hallows : network.allows s (.client e) = true)
    (hstep : Client.step s.client e = some client)
    (hs' : s' = { s with
      client := client
      upstream := s.upstream ++ client.sent.drop s.client.sent.length
      downstream := s.downstream.drop (client.received.length - s.client.received.length) }) :
    Ok transport host r s' ∧
      measure host r s' + 1 ≤ measure host r s + if e.idle then 5 else 0 := by
  obtain ⟨rest, hfront⟩ := h.response_front
  have hturn := Client.step_turn h.client hfront (h.client_smooth hsmooth hallows) hstep
  have hok : Ok transport host r s' := by
    subst hs'
    exact ⟨hturn.ok, h.worker, written h.upstream hturn.sent,
      read h.downstream hturn.received (client_arrived hallows)⟩
  have hclient : s'.client = client := by rw [hs']
  have hworker : s'.worker = s.worker := by rw [hs']
  have hafter := hok.traffic_le
  rw [State.traffic, hclient, hworker] at hafter
  have hless := hturn.pays.measure h.traffic_le hafter
  refine ⟨hok, ?_⟩
  rw [measure, measure, State.traffic, State.traffic, hclient, hworker]
  omega

/-- A step of the worker keeps the two in order, and counts. -/
theorem step_worker {e : Session.Event} {worker : Session.State} (h : Ok transport host r s)
    (hsmooth : e.smooth = true) (hallows : network.allows s (.worker e) = true)
    (hstep : Session.step transport host s.worker e = some worker)
    (hs' : s' = { s with
      worker := worker
      upstream := s.upstream.drop (worker.received.length - s.worker.received.length)
      downstream := s.downstream ++ worker.sent.drop s.worker.sent.length }) :
    Ok transport host r s' ∧
      measure host r s' + 1 ≤ measure host r s + if e.idle then 5 else 0 := by
  obtain ⟨rest, hfront⟩ := h.request_front
  have hvalid := h.worker.balanced.verdict_of_front hfront
  obtain ⟨hworker, hturn⟩ := Session.step_turn transport h.worker hvalid hsmooth hstep
  have hok : Ok transport host r s' := by
    subst hs'
    exact ⟨h.client, hworker, read h.upstream hturn.received (worker_arrived hallows),
      written h.downstream hturn.sent⟩
  have hclient : s'.client = s.client := by rw [hs']
  have hworker' : s'.worker = worker := by rw [hs']
  have hbefore := h.traffic_le
  have hafter := hok.traffic_le
  rw [State.traffic, Nat.add_comm] at hbefore hafter
  rw [hclient, hworker'] at hafter
  have hless := hturn.pays.measure hbefore hafter
  refine ⟨hok, ?_⟩
  rw [measure, measure, State.traffic, State.traffic, hclient, hworker']
  omega

/-- **Every step keeps the two in order, and counts.** -/
theorem step_ok (h : Ok transport host r s) (hstep : step transport host network s e = some s') :
    Ok transport host r s' ∧
      measure host r s' + 1 ≤ measure host r s + if e.idle then 5 else 0 := by
  unfold step at hstep
  split at hstep
  · next hguard =>
      obtain ⟨-, hsmooth, hallows⟩ := hguard
      cases e with
      | client e =>
          obtain ⟨client, hclient, hs'⟩ := Option.map_eq_some_iff.mp hstep
          exact step_client h hsmooth hallows hclient hs'.symm
      | worker e =>
          obtain ⟨worker, hworker, hs'⟩ := Option.map_eq_some_iff.mp hstep
          exact step_worker h hsmooth hallows hworker hs'.symm
  · cases hstep

theorem ok_inductive {request : Buffer} (hframe : request.data = r.frame) :
    (exchange transport host network request).Inductive (Ok transport host r) where
  init := by
    rintro s rfl
    exact ok_start hframe
  step _ _ _ hs hstep := (step_ok hs hstep).1

/-- At the start everything is still to be moved. -/
theorem measure_start (transport : Transport) (host : Host) {request : Buffer}
    (hframe : request.data = r.frame) :
    measure host r (.start transport request) = 6 * work host r + 4 := by
  have hpos : 0 < request.length := by
    rw [Buffer.length, hframe, Request.frame_length, requestHeaderSize]
    omega
  have hrank : (State.start transport request).client.pc.rank = 0 := by
    show (Client.sendFrom request 0).rank = 0
    rw [Client.sendFrom, if_pos hpos]
    rfl
  have htraffic : (State.start transport request).traffic = 0 := rfl
  rw [measure, htraffic, hrank]
  rfl

/-! ## Progress -/

/-- The call is not made in vain: it moves something, and what `poll` finds is there. -/
def Network.serves (network : Network) (s : State) : Event → Bool
  | .worker (.poll (.ready revents)) =>
      (!revents.pollIn || !s.upstream.isEmpty) &&
        (!revents.pollOut || s.downstream.length < network.downstream)
  | e => !e.idle

/-- Some step can be taken that is not in vain. -/
def Moves (transport : Transport) (host : Host) (network : Network) (s : State) : Prop :=
  ∃ e, network.serves s e = true ∧ (step transport host network s e).isSome = true

theorem moves_client (e : Client.Event) (hover : s.over = false) (hsmooth : e.smooth = true)
    (hallows : network.allows s (.client e) = true) (hidle : e.idle = false)
    (hstep : (Client.step s.client e).isSome = true) : Moves transport host network s := by
  have hsmooth' : (Event.client e).smooth = true := by
    unfold Event.smooth
    split
    · rfl
    · next hevent => cases hevent; exact hsmooth
    · next hevent => cases hevent
  refine ⟨.client e, by simp [Network.serves, Event.idle, hidle], ?_⟩
  unfold step
  rw [if_pos ⟨hover, hsmooth', hallows⟩]
  simpa only [Option.isSome_map] using hstep

theorem moves_worker (e : Session.Event) (hover : s.over = false) (hsmooth : e.smooth = true)
    (hallows : network.allows s (.worker e) = true)
    (hserves : network.serves s (.worker e) = true)
    (hstep : (Session.step transport host s.worker e).isSome = true) :
    Moves transport host network s := by
  refine ⟨.worker e, hserves, ?_⟩
  unfold step
  rw [if_pos ⟨hover, hsmooth, hallows⟩]
  simpa only [Option.isSome_map] using hstep

/-- **The worker can move**, unless it waits for input that is not there, or for room. -/
theorem Ok.worker_moves (h : Ok transport host r s) (hover : s.over = false)
    (hinput : Session.Idle s.worker → s.upstream ≠ [])
    (houtput : s.worker.output.data ≠ [] → s.downstream.length < network.downstream) :
    Moves transport host network s := by
  obtain ⟨hlimit, -, hsize⟩ := transport.limits
  have hcalm := h.worker.calm
  have hidle := h.worker.valid.pc
  have hroom : 0 < s.worker.output.length → s.downstream.length < network.downstream :=
    fun hpos => houtput (List.ne_nil_of_length_pos hpos)
  cases hpc : s.worker.pc with
  | loopTest =>
      apply moves_worker (.stopTest false) hover rfl rfl rfl
      simp only [Session.step, hpc]
      rfl
  | processing =>
      apply moves_worker (.process .fair) hover rfl rfl rfl
      simp only [Session.step, hpc]
      split
      · split <;> rfl
      · rfl
  | polling events =>
      rw [hpc] at hcalm hidle
      obtain rfl : events = Session.pollEvents s.worker.output := hcalm
      by_cases hlen : s.worker.output.length > 0
      · -- it has something to send, and there is room
        apply moves_worker (.poll (.ready .writable)) hover rfl rfl
        · simpa [Network.serves, Revents.writable] using hroom hlen
        · simp only [Session.step, hpc, Session.pollEvents, if_pos hlen]
          rfl
      · have hup := hinput (hidle (by rw [Session.pollEvents, if_neg hlen]))
        apply moves_worker (.poll (.ready .readable)) hover rfl rfl
        · simpa [Network.serves, Revents.readable] using hup
        · simp only [Session.step, hpc, Session.pollEvents, if_neg hlen]
          rfl
  | reading revents =>
      rw [hpc] at hidle
      have hspace := hasRoom_of_needMore hsize (h.worker.within.input.trans hlimit) hidle.2
      have hsize := Nat.pos_of_ne_zero hspace.readSize_ne
      obtain ⟨b, rest, hup⟩ := List.exists_cons_of_ne_nil (hinput hidle)
      apply moves_worker (.read (.data [b]) true) hover rfl
      · simp [Network.allows, hup]
      · rfl
      · simp only [Session.step, hpc, Option.isSome_map, transport.readClient_eq, Session.readClient]
        rw [if_neg hspace.readSize_ne, if_pos ⟨Nat.one_pos, hsize⟩]
        split <;> rfl
  | writing revents =>
      rw [hpc] at hcalm
      have hdown := hroom hcalm.1
      apply moves_worker (.send (.sent 1)) hover rfl
      · exact decide_eq_true hdown
      · rfl
      · simp only [Session.step, hpc, Option.isSome_map, transport.writeClient_eq, Session.writeClient]
        rw [if_pos ⟨Nat.one_pos, hcalm.1⟩]
        split <;> rfl
  | checking revents =>
      apply moves_worker .tick hover rfl rfl rfl
      simp only [Session.step, hpc]
      rfl
  | left exit =>
      rw [hpc] at hcalm
      exact hcalm.elim

/-- As long as some of the request is under way, nothing has been answered. -/
theorem Ok.output_of_upstream (h : Ok transport host r s) (hup : s.upstream ≠ []) :
    s.worker.output.data = [] := by
  obtain ⟨rest, hfront⟩ := h.request_front
  rcases h.worker.balanced.of_front hfront with ⟨-, -, hempty⟩ | ⟨-, hmissing, -⟩
  · exact hempty
  · exact absurd (List.append_eq_nil_iff.mp hmissing).1 hup

/-- **A client does not wait for a worker that waits for it.** When nothing is under way to a client
that wants more, an idle worker has something to read: it would hold the whole request, unanswered,
or the client the whole response. -/
theorem Ok.upstream_of_idle (h : Ok transport host r s) (hidle : Session.Idle s.worker)
    (hsent : s.client.sent = r.frame) (hcut : s.client.received ≠ responseFrame (answer host r))
    (hdown : s.downstream = []) : s.upstream ≠ [] := by
  intro hup
  obtain ⟨hempty, hmore⟩ := hidle
  have hwhole : r.frame = s.worker.received := by
    rw [← hsent, h.upstream, hup, List.append_nil]
  have hfront : r.frame = s.worker.received ++ [] := by rw [List.append_nil, hwhole]
  rcases h.worker.balanced.of_front hfront with ⟨hheld, -, -⟩ | ⟨-, -, hanswered⟩
  · have hframe := requestCodec.parse_encode r []
    rw [List.append_nil, show requestCodec.encode r = r.frame from rfl, hwhole, ← hheld] at hframe
    cases hframe.symm.trans hmore
  · rw [hempty, List.append_nil, h.downstream, hdown, List.append_nil] at hanswered
    exact hcut hanswered

/-- A client that waits for more has room for it. -/
theorem Ok.client_room (h : Ok transport host r s) (hcollects : Client.Collects s.client)
    (hdown : s.downstream ≠ []) : 1 ≤ s.client.input.nextReadSize Client.readSize := by
  obtain ⟨hinput, hmax⟩ := hcollects
  obtain ⟨missing, hresponse⟩ := h.response_front
  have hlen := congrArg List.length hresponse
  have hpos := List.length_pos_of_ne_nil hdown
  have hle := (answer host r).property
  rw [responseFrame_length, List.length_append, List.length_append] at hlen
  rw [Buffer.nextReadSize_eq, hinput, hmax, Client.inputLimit, Client.readSize]
  omega

/-- A client that writes can write one more byte. -/
theorem writeAll_one {data : Bytes} {total : Nat} (h : total < data.length) :
    (Client.writeAll data total (.wrote 1)).isSome = true := by
  have hcount : 0 < 1 ∧ 1 ≤ sizeSub data.length total := by
    rw [sizeSub_eq (Nat.le_of_lt h)]
    omega
  simp only [Client.writeAll, if_pos hcount, Option.isSome_some]

/-- **One of the two can always move**, until the client has finished. -/
theorem Ok.progress (h : Ok transport host r s) (network : Network) (hover : s.over = false) :
    Moves transport host network s := by
  have hclient := h.client.pc
  cases hpc : s.client.pc with
  | sending total =>
      rw [hpc] at hclient
      by_cases hroom : s.upstream.length + 1 ≤ network.upstream
      · apply moves_client (.write (.wrote 1)) hover rfl
        · simpa [Network.allows, hpc] using hroom
        · rfl
        · simp only [Client.step, hpc, Option.isSome_map]
          exact writeAll_one (h.client.request.symm ▸ hclient.1)
      · -- the channel is full, and the worker can read from it
        have hup : s.upstream ≠ [] := by
          intro hnil
          have hpos := network.upstream_pos
          rw [hnil, List.length_nil] at hroom
          omega
        apply h.worker_moves hover
        · exact fun _ => hup
        · exact fun houtput => absurd (h.output_of_upstream hup) houtput
  | parsing =>
      obtain ⟨missing, hresponse⟩ := h.response_front
      obtain ⟨client, hstep, -⟩ := Client.turn_parse h.client hpc hresponse
      apply moves_client .parse hover rfl rfl rfl
      rw [hstep]
      rfl
  | reading =>
      rw [hpc] at hclient
      obtain ⟨hsent, -, hcollects, hcut⟩ := hclient
      by_cases hdown : s.downstream = []
      · apply h.worker_moves hover
        · exact fun hidle => h.upstream_of_idle hidle hsent hcut hdown
        · intro _
          rw [hdown]
          exact network.downstream_pos
      · obtain ⟨b, more, hb⟩ := List.exists_cons_of_ne_nil hdown
        apply moves_client (.read (.data [b]) true) hover rfl
        · simp [Network.allows, hb]
        · rfl
        · simp only [Client.step, hpc, Client.readResponse]
          rw [if_pos ⟨Nat.one_pos, h.client_room hcollects hdown⟩]
          split <;> rfl
  | printing data total =>
      rw [hpc] at hclient
      apply moves_client (.write (.wrote 1)) hover rfl
      · simp only [Network.allows, hpc]
      · rfl
      · simp only [Client.step, hpc, Option.isSome_map]
        exact writeAll_one hclient.2.2.1
  | finished result =>
      simp only [State.over, hpc] at hover
      cases hover

/-! ## The exchange -/

/-- **The response reaches the client.** The client has encoded a request of any type and argument,
and the worker of either threaded server runs it on any host. Whatever the order of their steps and
however the bytes are cut in either direction:

* the worker does not leave its loop, and the client does not finish but with success, having
  written exactly the payload of the response to standard output;
* until then one of the two can always make a call that is not in vain;
* the number of steps is bounded, but for calls that are made in vain. -/
theorem exchange_delivers (transport : Transport) (host : Host) (network : Network)
    {type : RequestType} {argument : Bytes} {headerOk argumentOk : Bool} {request : Buffer}
    (hencode : Client.encodeRequest type argument headerOk argumentOk = (.ok (), request)) :
    (∀ s, (exchange transport host network request).Reachable s →
      s.worker.pc.InLoop ∧
      (∀ result, s.client.pc = .finished result →
        result = .ok () ∧ s.client.stdout = Response.payload host type argument) ∧
      ((∀ result, s.client.pc ≠ .finished result) → ∃ e s', network.serves s e = true ∧
        (exchange transport host network request).step s e s')) ∧
    ∀ es s, (exchange transport host network request).Run (.start transport request) es s →
      es.length ≤ 6 * (2 * request.length + 3 * (Response.payload host type argument).length + 4) +
        4 + 5 * es.countP Event.idle := by
  obtain ⟨r, hcode, rfl, hdata, -⟩ := encodeRequest_ok hencode
  obtain rfl : r.type = type := by
    have hofCode := RequestType.ofCode_code r.type
    rw [hcode, RequestType.ofCode_code] at hofCode
    exact (Option.some.inj hofCode).symm
  have hframe : request.data = r.frame := by simpa using hdata
  have hinductive : (exchange transport host network request).Inductive (Ok transport host r) :=
    ok_inductive hframe
  constructor
  · intro s hs
    have hok := hinductive.reachable hs
    refine ⟨hok.worker.inLoop, ?_, ?_⟩
    · intro result hpc
      have hclient := hok.client.pc
      rw [hpc] at hclient
      exact hclient.2
    · intro hnot
      have hover : s.over = false := by
        unfold State.over
        split
        · next result hpc => exact absurd hpc (hnot result)
        · rfl
      obtain ⟨e, hserves, hsome⟩ := hok.progress network hover
      obtain ⟨s', hstep⟩ := Option.isSome_iff_exists.mp hsome
      exact ⟨e, s', hserves, hstep⟩
  · intro es s hrun
    have hbound := hinductive.length_le (fun s e s' hs hstep => (step_ok hs hstep).2)
      (ok_start hframe) hrun
    have hstart := measure_start transport host hframe
    have hwork : work host r = 2 * request.length +
        3 * (Response.payload host r.type r.argument).length + 4 := by
      rw [work, respond_eq, responseFrame_length, Buffer.length, hframe, answer]
      simp only [responseHeaderSize]
      omega
    omega

/-- A run of the exchange. -/
theorem exchange_reaches (transport : Transport) (host : Host) (network : Network)
    (request : Buffer) (es : List Event) (test : State → Bool)
    (h : (StepSystem.exec (step transport host network) (.start transport request) es).any test =
      true) :
    ∃ s, (exchange transport host network request).Reachable s ∧ test s = true :=
  StepSystem.exists_reachable rfl h

/-- A network that takes four bytes one way and two the other. -/
def narrow : Network := ⟨4, 2, Nat.succ_pos 3, Nat.succ_pos 1⟩

/-- A round of the worker that ends in these events. -/
def round (events : List Session.Event) : List Event := (Session.round events).map .worker

/-- A `PWD` request and its response, in two pieces each; once the worker finds nothing to read. -/
def delivery : List Event :=
  [.client (.write (.wrote 4))] ++
  round [.poll (.ready .readable), .read (.data [0, 6, 0, 2]) true, .tick] ++
  round [.poll (.ready .readable), .read .wouldBlock true, .tick] ++
  [.client (.write (.wrote 2)), .client .parse] ++
  round [.poll (.ready .readable), .read (.data [0, 0]) true, .tick] ++
  round [.poll (.ready .writable), .send (.sent 2), .tick] ++
  [.client (.read (.data [0, 1]) true), .client .parse] ++
  round [.poll (.ready .writable), .send (.sent 1), .tick] ++
  [.client (.read (.data [47]) true), .client .parse, .client (.write (.wrote 1))]

/-- The directory of the host is printed. -/
theorem exchange_delivers_run : ∃ request s,
    Client.encodeRequest .pwd [] true true = (.ok (), request) ∧
    (exchange .tcp plainHost narrow request).Reachable s ∧ s.client.pc = .finished (.ok ()) ∧
    s.client.stdout = Response.payload plainHost .pwd [] ∧ s.client.stdout = [47] := by
  let request := (Client.encodeRequest .pwd [] true true).2
  have hencode : Client.encodeRequest .pwd [] true true = (.ok (), request) :=
    Prod.ext (by decide +kernel) rfl
  obtain ⟨s, hs, htest⟩ := exchange_reaches .tcp plainHost narrow request delivery
    (fun s => decide (s.client.pc = .finished (.ok ())) && decide (s.client.stdout = [47]))
    (by decide +kernel)
  simp only [Bool.and_eq_true, decide_eq_true_eq] at htest
  have hsafe := (exchange_delivers .tcp plainHost narrow hencode).1 s hs
  exact ⟨request, s, hencode, hs, htest.1, (hsafe.2.1 _ htest.1).2, htest.2⟩

end WireCommand.Exchange
