import WireCommand.RequestService
import WireCommand.Uds.Server

/-!
# The poll server implements the request service

The client table, the shared queue, the two buffers of a client and the poll list are how the server
works, not what it is for. `observe` says what the outside sees of a step: a connection is opened or
closed, bytes are read from it or sent on it, a request is run. `World.Tracks` relates the server to
the state of the request service, and `observe_simulation` shows that every step of the server, for
whatever the system calls and the allocator do, is something the service may do.
-/

namespace WireCommand.Uds

open Foundation Foundation.Framing Foundation.Service Protocol

/-! ## What the outside sees -/

/-- The client a step is for. -/
def State.client (s : State) : Option Slot :=
  match s.pc with
  | .processQueue =>
      (Queue.peek s.world.queue).bind fun first => findClient s.world.clients first.clientFd
  | .visiting _ entry _ _ => some entry.slot
  | .closing _ next => if h : next < maxClients then some ⟨next, h⟩ else none
  | _ => none

/-- The request that an entry of the queue holds. -/
def queuedRequest (entry : QueuedRequest) : Option Request :=
  if h : entry.argument.length ≤ maxArgumentLength then some ⟨entry.type, entry.argument, h⟩
  else none

/-- What a step does for its client: bytes that are read, bytes that are sent, a request that is
run. -/
def work (w : World) (i : Slot) : Event → List Observation
  | .read (.data bytes) _ _ =>
      if nextReadSize (w.clients i).input = 0 then [] else [.receives bytes]
  | .send (.sent count) _ =>
      if (w.clients i).output.length = 0 then []
      else [.sends ((w.clients i).output.data.take count)]
  | .process _ _ =>
      if (w.clients i).output.length = 0 then
        ((Queue.peek w.queue).bind queuedRequest).toList.map .runs
      else []
  | _ => []

/-- The client of a slot has been removed. -/
def departure (w w' : World) (i : Slot) : List Observation :=
  if w.Live i ∧ ¬ w'.Live i then [.closes] else []

/-- What a connection that is accepted goes through: it is closed again when it gets no slot. -/
def arrival (w' : World) (fd : Int) : List Observation :=
  .opens :: if (findClient w'.clients fd).isSome then [] else [.closes]

/-- What the outside sees of a step. -/
def observe (s : State) (e : Event) (s' : State) : List (Nat × Observation) :=
  match e with
  | .accept (.accepted fd) _ _ =>
      if hasFreeClientSlot s.world.clients then
        (arrival s'.world fd).map fun a => (s.world.nextConn, a)
      else []
  | e =>
      match s.client with
      | none => []
      | some i =>
          (work s.world i e ++ departure s.world s'.world i).map fun a =>
            ((s.world.clients i).conn, a)

variable {host : Host} {w w' : World} {i : Slot} {s s' : State} {e : Event} {t : Connections}

@[simp] theorem queuedRequest_queued (fd : Int) (conn : Nat) (r : Request) :
    queuedRequest (queued fd conn r) = some r := by
  simp [queuedRequest, queued, r.argument_le]

/-! ## The relation -/

/-- What the server holds for the client in a slot balances with its connection. -/
def ServesSlot (host : Host) (w : World) (i : Slot) (x : Connection Request UInt8) : Prop :=
  ∃ pending, Serving requestCodec (respond host) x pending (w.clients i).input.data
      (w.clients i).output.data ∧
    Queue.ofClient w.queue (w.clients i).fd =
      pending.map (queued (w.clients i).fd (w.clients i).conn)

/-- The connections are what the server has made of them. -/
structure World.Tracks (host : Host) (w : World) (t : Connections) : Prop where
  received : ∀ c, (t c).received = w.received c
  sent : ∀ c, (t c).sent = w.sent c
  serving : ∀ i, w.Live i → ServesSlot host w i (t (w.clients i).conn)
  opened : ∀ c, (t c).status = .opened → ∃ i, w.Live i ∧ (w.clients i).conn = c
  fresh : ∀ c, w.nextConn ≤ c → t c = .fresh

/-- What the server holds for a client is all that its balance is about. -/
theorem ServesSlot.frame {x : Connection Request UInt8} (h : ServesSlot host w i x)
    (hclient : w'.clients i = w.clients i)
    (hqueue : Queue.ofClient w'.queue (w.clients i).fd = Queue.ofClient w.queue (w.clients i).fd) :
    ServesSlot host w' i x := by
  unfold ServesSlot
  rw [hclient, hqueue]
  exact h

/-- The balances of the other clients are left alone. -/
theorem World.Tracks.others (ht : w.Tracks host t) (hv : w.Valid host) (hi : w.Live i)
    (htouch : Touches i w w') {j : Slot} (hj : w.Live j) (hne : j ≠ i)
    (x : Connection Request UInt8) :
    ServesSlot host w' j (Function.update t (w.clients i).conn x (w.clients j).conn) := by
  have hfd : (w.clients j).fd ≠ (w.clients i).fd := fun h => hne (hv.fd_inj j i hj hi h)
  have hconn : (w.clients j).conn ≠ (w.clients i).conn := fun h => hne (hv.conn_inj j i hj hi h)
  rw [Function.update_of_ne hconn]
  exact (ht.serving j hj).frame (htouch.clients j hne) (htouch.queue _ hfd)

/-- The bytes of all connections are accounted for when those of the client's are. -/
theorem World.Tracks.bytes (ht : w.Tracks host t) (htouch : Touches i w w')
    {x : Connection Request UInt8} (hreceived : x.received = w'.received (w.clients i).conn)
    (hsent : x.sent = w'.sent (w.clients i).conn) (c : Nat) :
    (Function.update t (w.clients i).conn x c).received = w'.received c ∧
      (Function.update t (w.clients i).conn x c).sent = w'.sent c := by
  by_cases hc : c = (w.clients i).conn
  · subst hc
    rw [Function.update_self]
    exact ⟨hreceived, hsent⟩
  · rw [Function.update_of_ne hc, htouch.received c hc, htouch.sent c hc]
    exact ⟨ht.received c, ht.sent c⟩

/-- Connections that have not come yet are not concerned. -/
theorem World.Tracks.update_fresh (ht : w.Tracks host t) (hv : w.Valid host) (hi : w.Live i)
    (htouch : Touches i w w') (x : Connection Request UInt8) (c : Nat) (hc : w'.nextConn ≤ c) :
    Function.update t (w.clients i).conn x c = .fresh := by
  have hlt := (hv.client i hi).conn_lt
  rw [htouch.nextConn] at hc
  rw [Function.update_of_ne (by omega)]
  exact ht.fresh c hc

/-- **The first rule**: what was done for the client is what its connection went through. -/
theorem World.Tracks.touch (ht : w.Tracks host t) (hv : w.Valid host) (hi : w.Live i)
    (htouch : Touches i w w') {x : Connection Request UInt8}
    (hreceived : x.received = w'.received (w.clients i).conn)
    (hsent : x.sent = w'.sent (w.clients i).conn) (hserves : ServesSlot host w' i x) :
    w'.Tracks host (Function.update t (w.clients i).conn x) where
  received c := (ht.bytes htouch hreceived hsent c).1
  sent c := (ht.bytes htouch hreceived hsent c).2
  serving j hj := by
    rw [htouch.conn_eq j]
    by_cases hne : j = i
    · subst hne
      rwa [Function.update_self]
    · exact ht.others hv hi htouch (htouch.live.mp hj) hne x
  opened c hc := by
    by_cases hci : c = (w.clients i).conn
    · exact ⟨i, htouch.live.mpr hi, by rw [htouch.conn, hci]⟩
    · rw [Function.update_of_ne hci] at hc
      obtain ⟨j, hj, hconn⟩ := ht.opened c hc
      exact ⟨j, htouch.live.mpr hj, by rw [htouch.conn_eq, hconn]⟩
  fresh := ht.update_fresh hv hi htouch x

/-- **The second rule**: the client is removed, and its connection is closed. -/
theorem World.Tracks.remove (ht : w.Tracks host t) (hv : w.Valid host) (hi : w.Live i)
    (htouch : Touches i w w') {x : Connection Request UInt8}
    (hreceived : x.received = w'.received (w.clients i).conn)
    (hsent : x.sent = w'.sent (w.clients i).conn) (hclosed : x.status = .closed)
    (released : Bool) :
    (removeClient w' i released).Tracks host (Function.update t (w.clients i).conn x) := by
  have hi' : w'.Live i := htouch.live.mpr hi
  have hbytes := ht.bytes htouch hreceived hsent
  have hfresh := ht.update_fresh hv hi htouch x
  refine ⟨?_, ?_, ?_, ?_, ?_⟩
  · rw [removeClient_eq hi']
    exact fun c => (hbytes c).1
  · rw [removeClient_eq hi']
    exact fun c => (hbytes c).2
  · intro j hj
    obtain ⟨hj', hne⟩ := (removeClient_live released).mp hj
    have hj : w.Live j := htouch.live.mp hj'
    have hfd : (w'.clients j).fd ≠ (w'.clients i).fd := by
      rw [htouch.fd_eq, htouch.fd]
      exact fun h => hne (hv.fd_inj j i hj hi h)
    have hclients := removeClient_clients (w := w') released hne
    rw [hclients, htouch.conn_eq]
    refine (ht.others hv hi htouch hj hne x).frame hclients ?_
    rw [removeClient_eq hi']
    exact Queue.ofClient_discardClient_of_ne hfd
  · intro c hc
    have hne : c ≠ (w.clients i).conn := by
      rintro rfl
      rw [Function.update_self, hclosed] at hc
      cases hc
    rw [Function.update_of_ne hne] at hc
    obtain ⟨j, hj, hconn⟩ := ht.opened c hc
    have hji : j ≠ i := by
      rintro rfl
      exact hne hconn.symm
    refine ⟨j, (removeClient_live released).mpr ⟨htouch.live.mpr hj, hji⟩, ?_⟩
    rw [removeClient_clients released hji, htouch.conn_eq, hconn]
  · rw [removeClient_eq hi']
    exact hfresh

/-! ## What the functions do for a client -/

/-- A function served the client in a slot: its connection went through `acts` and came to `x`. A
client that is `kept` is in balance. -/
structure Serves (host : Host) (w : World) (i : Slot) (t : Connections) (acts : List Observation)
    (w' : World) (kept : Prop) (x : Connection Request UInt8) : Prop where
  touches : Touches i w w'
  run : (requestConnection host).Run (t (w.clients i).conn) acts x
  opened : x.status = .opened
  received : x.received = w'.received (w.clients i).conn
  sent : x.sent = w'.sent (w.clients i).conn
  balanced : kept → ServesSlot host w' i x

/-- Nothing was done. -/
theorem World.Tracks.serves_nothing (ht : w.Tracks host t) (hv : w.Valid host) (hi : w.Live i)
    (kept : Prop) : Serves host w i t [] w kept (t (w.clients i).conn) := by
  have hserves := ht.serving i hi
  obtain ⟨pending, hserving, hqueue⟩ := hserves
  exact ⟨.refl hv, .nil, hserving.opened, ht.received _, ht.sent _,
    fun _ => ⟨pending, hserving, hqueue⟩⟩

/-- One iteration of `wc_uds_read_client`. -/
theorem readClient_serves {outcome : ReadOutcome} {env : ReadEnv} {released : Bool}
    {iteration : Iteration} (ht : w.Tracks host t) (hv : w.Valid host) (hi : w.Live i)
    (h : readClient w i outcome env = some (iteration, w')) :
    ∃ x, Serves host w i t (work w i (.read outcome env released)) w' (iteration ≠ .failed) x := by
  have htouches := (readClient_spec hv hi h).1
  have hread : nextReadSize (w.clients i).input ≠ 0 := (hv.client i hi).nextReadSize_pos.ne'
  obtain ⟨pending, hserving, hqueue⟩ := ht.serving i hi
  cases readClient_read hv hi h with
  | eof | interrupted | wouldBlock | failed => exact ⟨_, ht.serves_nothing hv hi _⟩
  | @lost bytes _ =>
      obtain ⟨hallows, hafter⟩ := hserving.receives bytes
      refine ⟨_, htouches, ?_, hafter.opened, ?_, ht.sent _, fun hne => absurd rfl hne⟩
      · simp only [work, hread, if_false]
        exact run_one hallows
      · simp [Connection.after, ht.received]
  | @parsed bytes appended input parsed result hdata hmax hsplit hlen henqueue hstop =>
      obtain ⟨hallows, hafter⟩ := hserving.receives bytes
      rw [← hdata, hsplit] at hafter
      refine ⟨_, htouches, ?_, hafter.opened, ?_, ht.sent _, fun _ => ?_⟩
      · simp only [work, hread, if_false]
        exact run_one hallows
      · simp [Connection.after, ht.received, World.afterRead, World.setClient, World.noteReceived]
      · refine ⟨pending ++ parsed, ?_, ?_⟩
        · simpa [World.afterRead, World.setClient] using hafter.parse
        · simp only [World.afterRead, World.setClient, Function.update_self, Queue.ofClient_append,
            ofClient_queued_self, hqueue, List.map_append]

/-- One iteration of `wc_uds_write_client`. -/
theorem writeClient_serves {outcome : SendOutcome} {released : Bool} {iteration : Iteration}
    (ht : w.Tracks host t) (hv : w.Valid host) (hi : w.Live i)
    (h : writeClient w i outcome = some (iteration, w')) :
    ∃ x, Serves host w i t (work w i (.send outcome released)) w' (iteration ≠ .failed) x := by
  have htouches := (writeClient_spec hv hi h).1
  obtain ⟨pending, hserving, hqueue⟩ := ht.serving i hi
  by_cases hempty : (w.clients i).output.length = 0
  · have hsame : w' = w := by
      simp only [writeClient, hempty, if_true] at h
      cases h
      rfl
    have hwork : work w i (.send outcome released) = [] := by
      cases outcome <;> simp [work, hempty]
    rw [hsame, hwork]
    exact ⟨_, ht.serves_nothing hv hi _⟩
  · cases writeClient_wrote h with
    | interrupted | wouldBlock | failed => exact ⟨_, ht.serves_nothing hv hi _⟩
    | nothing =>
        cases outcome with
        | interrupted | wouldBlock | failed => exact ⟨_, ht.serves_nothing hv hi _⟩
        | sent count =>
            -- a call that sent something is not the end of the loop
            simp only [writeClient, hempty, if_false] at h
            split at h
            · split at h <;> cases h
            · cases h
    | @sent count output hdata hmax =>
        obtain ⟨hallows, hafter⟩ := hserving.sends count
        refine ⟨_, htouches, ?_, hafter.opened, ht.received _, ?_, fun _ => ⟨pending, ?_, ?_⟩⟩
        · simp only [work, hempty, if_false]
          exact run_one hallows
        · simp [Connection.after, ht.sent, World.afterSend, World.setClient, World.noteSent]
        · simpa [World.afterSend, World.setClient, World.noteSent, hdata] using hafter
        · simpa [World.afterSend, World.setClient, World.noteSent] using hqueue

/-- The head of the queue is run for its client. -/
theorem processQueue_serves {env : Response.Env} {released : Bool} {first : QueuedRequest}
    {rest : RequestQueue} {output : Buffer} {result : Except Errno Unit} (ht : w.Tracks host t)
    (hv : w.Valid host) (hqueue : w.queue = first :: rest) (hi : w.Live i)
    (hfd : (w.clients i).fd = first.clientFd) (hempty : (w.clients i).output.data = [])
    (hencode : encodeCommandResponse host (w.clients i).output first env = (result, output)) :
    ∃ x, Serves host w i t (work w i (.process env released)) (w.afterDequeue i output rest)
      (result = .ok ()) x := by
  obtain ⟨pending, hserving, hpending⟩ := ht.serving i hi
  have hhead : Queue.ofClient w.queue (w.clients i).fd =
      first :: Queue.ofClient rest (w.clients i).fd := by
    simp [hqueue, Queue.ofClient, hfd]
  rw [hhead] at hpending
  cases pending with
  | nil => cases hpending
  | cons r pending =>
      simp only [List.map_cons, List.cons.injEq] at hpending
      obtain ⟨hfirst, hrest⟩ := hpending
      rw [hempty] at hserving
      obtain ⟨hallows, hafter⟩ := hserving.runs
      have hwork : work w i (.process env released) = [.runs r] := by
        simp [work, Buffer.length, hempty, hqueue, hfirst]
      refine ⟨_, touches_afterDequeue hv hqueue hfd output, ?_, hafter.opened, ht.received _,
        ht.sent _, ?_⟩
      · rw [hwork]
        exact run_one hallows
      · rintro rfl
        obtain ⟨hdata, -⟩ := Response.encodeCommandResponse_ok hencode
        have hrespond : output.data = respond host r := by
          rw [hdata, hempty, hfirst]
          rfl
        refine ⟨pending, ?_, ?_⟩
        · simpa [World.afterDequeue, World.setClient, hrespond] using hafter
        · simpa [World.afterDequeue, World.setClient] using hrest

/-! ## Every step -/

/-- The connections after a step, and that the service may do what the outside sees of it. -/
def Simulated (host : Host) (s : State) (t : Connections) (e : Event) (s' : State) : Prop :=
  ∃ t', (requestService host).Run t (observe s e s') t' ∧ s'.world.Tracks host t'

/-- A step that serves a client and keeps it. -/
theorem Serves.simulated_kept {x : Connection Request UInt8} {kept : Prop}
    (h : Serves host s.world i t (work s.world i e) w' kept x) (hs' : s'.world = w')
    (hkept : kept) (ht : s.world.Tracks host t) (hv : s.world.Valid host) (hi : s.world.Live i)
    (hobserve : observe s e s' = (work s.world i e ++ departure s.world s'.world i).map fun a =>
      ((s.world.clients i).conn, a)) : Simulated host s t e s' := by
  subst hs'
  have hdeparture : departure s.world s'.world i = [] :=
    if_neg fun hgone => hgone.2 (h.touches.live.mpr hi)
  rw [hdeparture, List.append_nil] at hobserve
  refine ⟨_, ?_, ht.touch hv hi h.touches h.received h.sent (h.balanced hkept)⟩
  rw [hobserve]
  exact StepSystem.family_run h.run

/-- A step that serves a client and removes it. -/
theorem Serves.simulated_removed {x : Connection Request UInt8} {kept : Prop} {released : Bool}
    (h : Serves host s.world i t (work s.world i e) w' kept x)
    (hs' : s'.world = removeClient w' i released) (ht : s.world.Tracks host t)
    (hv : s.world.Valid host) (hi : s.world.Live i)
    (hobserve : observe s e s' = (work s.world i e ++ departure s.world s'.world i).map fun a =>
      ((s.world.clients i).conn, a)) : Simulated host s t e s' := by
  have hdeparture : departure s.world s'.world i = [.closes] := by
    refine if_pos ⟨hi, ?_⟩
    rw [hs', removeClient_live]
    exact fun hlive => hlive.2 rfl
  rw [hdeparture] at hobserve
  have hclose : Allows requestCodec (respond host) x .closes := h.opened
  refine ⟨Function.update t (s.world.clients i).conn (x.after .closes), ?_, ?_⟩
  · rw [hobserve]
    exact StepSystem.family_run (h.run.append (run_one hclose))
  · rw [hs']
    exact ht.remove (x := x.after .closes) hv hi h.touches h.received h.sent rfl released

/-- A step of which the outside sees nothing. -/
theorem World.Tracks.simulated_silent (ht : s.world.Tracks host t) (hworld : s'.world = s.world)
    (hobserve : observe s e s' = []) : Simulated host s t e s' := by
  refine ⟨t, ?_, ?_⟩
  · rw [hobserve]
    exact .nil
  · rwa [hworld]

/-- A step that does no work and leaves its client in place, if it has one. -/
theorem observe_eq_nil (haccept : ∀ fd nonblockingOk released,
      e ≠ .accept (.accepted fd) nonblockingOk released)
    (hwork : ∀ i, s.client = some i → work s.world i e = [])
    (hstays : ∀ i, s.world.Live i → s'.world.Live i) : observe s e s' = [] := by
  unfold observe
  split
  · exact absurd rfl (haccept _ _ _)
  · split
    · rfl
    · next i hi =>
        have hdeparture : departure s.world s'.world i = [] :=
          if_neg fun hgone => hgone.2 (hstays i hgone.1)
        rw [hwork i hi, hdeparture]
        rfl

theorem continueVisit_simulated {phase : Phase} {entry : PollEntry} {listener : Revents}
    {todo : List PollEntry} {next : Pc} {released : Bool} {iteration : Iteration}
    {x : Connection Request UInt8} (hpc : s.pc = .visiting phase entry listener todo)
    (haccept : ∀ fd nonblockingOk released, e ≠ .accept (.accepted fd) nonblockingOk released)
    (h : Serves host s.world entry.slot t (work s.world entry.slot e) w' (iteration ≠ .failed) x)
    (ht : s.world.Tracks host t) (hv : s.world.Valid host) (hi : s.world.Live entry.slot) :
    Simulated host s t e (continueVisit s entry listener todo next released (iteration, w')) := by
  have hobserve : ∀ s', observe s e s' =
      (work s.world entry.slot e ++ departure s.world s'.world entry.slot).map fun a =>
        ((s.world.clients entry.slot).conn, a) := by
    intro s'
    unfold observe
    split
    · exact absurd rfl (haccept _ _ _)
    · simp only [State.client, hpc]
  cases iteration with
  | again => exact h.simulated_kept rfl (by decide) ht hv hi (hobserve _)
  | done => exact h.simulated_kept rfl (by decide) ht hv hi (hobserve _)
  | failed => exact h.simulated_removed rfl ht hv hi (hobserve _)

/-- A client that is removed for no work of its own. -/
theorem World.Tracks.simulated_remove {released : Bool} (ht : s.world.Tracks host t)
    (hv : s.world.Valid host) (hs' : s'.world = removeClient s.world i released)
    (hwork : work s.world i e = [])
    (hobserve : observe s e s' = (work s.world i e ++ departure s.world s'.world i).map fun a =>
      ((s.world.clients i).conn, a)) : Simulated host s t e s' := by
  by_cases hi : s.world.Live i
  · have hserves := ht.serves_nothing hv hi True
    rw [← hwork] at hserves
    exact hserves.simulated_removed hs' ht hv hi hobserve
  · rw [removeClient_of_free hi] at hs'
    apply ht.simulated_silent hs'
    rw [hobserve, hwork, departure, if_neg fun h => hi h.1]
    rfl

/-! ## Arrivals -/

/-- A new connection, for which `x` is what it went through. -/
theorem World.Tracks.arrive (ht : w.Tracks host t) (hv : w.Valid host)
    {x : Connection Request UInt8} (hx : x.received = [] ∧ x.sent = [])
    (hreceived : w'.received = w.received) (hsent : w'.sent = w.sent)
    (hnext : w'.nextConn = w.nextConn + 1)
    (hserving : ∀ j, w'.Live j →
      ServesSlot host w' j (Function.update t w.nextConn x (w'.clients j).conn))
    (hopened : ∀ c, (Function.update t w.nextConn x c).status = .opened →
      ∃ j, w'.Live j ∧ (w'.clients j).conn = c) :
    w'.Tracks host (Function.update t w.nextConn x) := by
  have hfresh := hv.fresh w.nextConn (le_refl _)
  refine ⟨?_, ?_, hserving, hopened, ?_⟩
  · intro c
    rw [hreceived]
    by_cases hc : c = w.nextConn
    · rw [hc, Function.update_self, hx.1, hfresh.1]
    · rw [Function.update_of_ne hc, ht.received]
  · intro c
    rw [hsent]
    by_cases hc : c = w.nextConn
    · rw [hc, Function.update_self, hx.2, hfresh.2]
    · rw [Function.update_of_ne hc, ht.sent]
  · intro c hc
    rw [hnext] at hc
    rw [Function.update_of_ne (by omega)]
    exact ht.fresh c (by omega)

/-- A connection that gets a slot is opened. -/
theorem World.Tracks.add (ht : w.Tracks host t) (hv : w.Valid host) {fd : Int}
    (hi : (w.clients i).fd = -1) (hnonneg : 0 ≤ fd) (hfd : fd ∉ w.openFds) :
    ((w.connect fd).setClient i (.connected fd w.nextConn)).Tracks host
      (Function.update t w.nextConn (Connection.fresh.after .opens)) := by
  have hfree : ¬ w.Live i := not_not.mpr hi
  have hold : ∀ {j}, j ≠ i →
      ((w.connect fd).setClient i (.connected fd w.nextConn)).clients j = w.clients j :=
    fun hj => setClient_of_ne _ _ hj
  -- a descriptor that was not open has no requests in the queue
  have hqueue : Queue.ofClient w.queue fd = [] := by
    apply List.filter_eq_nil_iff.mpr
    intro entry hentry
    obtain ⟨j, hj, hjfd⟩ := hv.owned entry hentry
    have hne : (w.clients j).fd ≠ fd := fun h => hfd (h ▸ (hv.client j hj).fd_open)
    simpa [← hjfd] using hne
  refine ht.arrive hv ⟨rfl, rfl⟩ rfl rfl rfl ?_ ?_
  · intro j hj
    by_cases hne : j = i
    · subst hne
      rw [setClient_self]
      simp only [Client.connected, Function.update_self]
      refine ⟨[], ?_, ?_⟩
      · rw [setClient_self]
        exact Serving.opens.2
      · rw [setClient_self]
        exact hqueue
    · rw [World.Live, hold hne] at hj
      have hconn : (w.clients j).conn ≠ w.nextConn := (hv.client j hj).conn_lt.ne
      rw [hold hne, Function.update_of_ne hconn]
      exact (ht.serving j hj).frame (hold hne) rfl
  · intro c hc
    by_cases hcn : c = w.nextConn
    · refine ⟨i, ?_, ?_⟩
      · rw [World.Live, setClient_self]
        exact fun h => by simp only [Client.connected] at h; omega
      · rw [setClient_self]
        exact hcn.symm
    · rw [Function.update_of_ne hcn] at hc
      obtain ⟨j, hj, hconn⟩ := ht.opened c hc
      have hji : j ≠ i := by
        rintro rfl
        exact hfree hj
      exact ⟨j, by rwa [World.Live, hold hji], by rw [hold hji, hconn]⟩

/-- A connection that is closed again at once. -/
theorem World.Tracks.reject (ht : w.Tracks host t) (hv : w.Valid host) (fd : Int)
    (released : Bool) :
    ((w.connect fd).close fd released).Tracks host
      (Function.update t w.nextConn ((Connection.fresh.after .opens).after .closes)) := by
  refine ht.arrive hv ⟨rfl, rfl⟩ rfl rfl rfl ?_ ?_
  · intro j hj
    have hconn : ((w.connect fd).close fd released |>.clients j).conn ≠ w.nextConn :=
      (hv.client j hj).conn_lt.ne
    rw [Function.update_of_ne hconn]
    exact (ht.serving j hj).frame rfl rfl
  · intro c hc
    have hne : c ≠ w.nextConn := by
      rintro rfl
      rw [Function.update_self] at hc
      cases hc
    rw [Function.update_of_ne hne] at hc
    exact ht.opened c hc

/-- `accept` returned a connection. -/
theorem acceptClients_accepted {fd : Int} {nonblockingOk released again : Bool}
    (hfree : hasFreeClientSlot w.clients = true)
    (h : acceptClients w (.accepted fd) nonblockingOk released = some (again, w')) :
    0 ≤ fd ∧ Arrival w fd nonblockingOk released w' := by
  have hfd : 0 ≤ fd := by
    simp only [acceptClients, hfree, if_true] at h
    split at h
    · next hfd => exact hfd.1
    · cases h
  refine ⟨hfd, ?_⟩
  rcases acceptClients_arrival h with rfl | ⟨fd', hout, harrival⟩
  · -- the connection has been counted
    simp only [acceptClients, hfree, if_true] at h
    split at h
    · split at h
      · split at h <;> exact absurd (congrArg (fun r => r.map (·.2.nextConn)) h) (by
          simp [World.connect, World.close])
      · exact absurd (congrArg (fun r => r.map (·.2.nextConn)) h) (by
          simp [World.connect, World.close])
    · cases h
  · cases hout
    exact harrival

/-- A connection that is accepted is opened, and closed again when it gets no slot. -/
theorem acceptClients_simulated {stop : Bool} {outcome : AcceptOutcome}
    {nonblockingOk released again : Bool} {pc : Pc} (ht : w.Tracks host t) (hv : w.Valid host)
    (h : acceptClients w outcome nonblockingOk released = some (again, w')) :
    Simulated host ⟨.accepting, stop, w⟩ t (.accept outcome nonblockingOk released)
      ⟨pc, stop, w'⟩ := by
  cases outcome with
  | interrupted | wouldBlock | failed =>
      have hsame : w' = w := by
        rcases acceptClients_arrival h with hsame | ⟨fd, hout, -⟩
        · exact hsame
        · cases hout
      exact ht.simulated_silent hsame rfl
  | accepted fd =>
      by_cases hfree : hasFreeClientSlot w.clients = true
      · obtain ⟨hnonneg, harrival⟩ := acceptClients_accepted hfree h
        have hnew : t w.nextConn = .fresh := ht.fresh _ (le_refl _)
        have hopens : (requestConnection host).Run .fresh [.opens]
            (Connection.fresh.after .opens) := run_one rfl
        cases harrival with
        | added i hi hfd hnew' =>
            refine ⟨_, ?_, ht.add hv hi hfd hnew'⟩
            have hfound : (findClient ((w.connect fd).setClient i
                (.connected fd w.nextConn)).clients fd).isSome :=
              findClient_isSome (i := i) (by rw [setClient_self]; rfl)
            simp only [observe, hfree, if_true, arrival, hfound]
            exact StepSystem.family_run (by rw [hnew]; exact hopens)
        | rejected _ hnew' =>
            refine ⟨_, ?_, ht.reject hv fd released⟩
            have hfound : ¬ (findClient ((w.connect fd).close fd released).clients fd).isSome := by
              intro hsome
              obtain ⟨i, hfind⟩ := Option.isSome_iff_exists.mp hsome
              have hi : (w.clients i).fd = fd := findClient_some hfind
              have hlive : w.Live i := by
                rw [World.Live, hi]
                omega
              exact hnew' (hi ▸ (hv.client i hlive).fd_open)
            simp only [observe, hfree, if_true, arrival]
            rw [if_neg hfound]
            refine StepSystem.family_run ?_
            rw [hnew]
            exact hopens.append (run_one rfl)
      · have hsame : w' = w := by
          simp only [acceptClients, hfree] at h
          cases h
          rfl
        apply ht.simulated_silent hsame
        simp [observe, hfree]

/-! ## Running requests -/

/-- `wc_uds_process_queue` works for the client of the head of the queue. -/
theorem client_processQueue {stop : Bool} {first : QueuedRequest} {rest : RequestQueue}
    (hv : w.Valid host) (hqueue : w.queue = first :: rest) (hi : w.Live i)
    (hfd : (w.clients i).fd = first.clientFd) :
    State.client ⟨.processQueue, stop, w⟩ = some i := by
  obtain ⟨j, hfind, hj, hjfd⟩ := hv.findClient_head hqueue
  have hji : j = i := hv.fd_inj j i hj hi (hjfd.trans hfd.symm)
  simp [State.client, hqueue, hfind, hji]

/-- One iteration of `wc_uds_process_queue`. -/
theorem Processed.simulated {env : Response.Env} {released again stop : Bool} {pc : Pc}
    (h : Processed host w env released (again, w')) (ht : w.Tracks host t) (hv : w.Valid host) :
    Simulated host ⟨.processQueue, stop, w⟩ t (.process env released) ⟨pc, stop, w'⟩ := by
  have hobserve : ∀ {i}, State.client ⟨.processQueue, stop, w⟩ = some i →
      observe ⟨.processQueue, stop, w⟩ (.process env released) ⟨pc, stop, w'⟩ =
        (work w i (.process env released) ++ departure w w' i).map fun a =>
          ((w.clients i).conn, a) := by
    intro i hclient
    simp only [observe, hclient]
  cases h with
  | waits hwaits =>
      refine World.Tracks.simulated_silent ht rfl
        (observe_eq_nil (fun _ _ _ h => by cases h) ?_ fun _ h => h)
      intro i hclient
      cases hqueue : w.queue with
      | nil => simp [State.client, hqueue, Queue.peek] at hclient
      | cons first rest =>
          obtain ⟨j, hj, hfd, hwaiting⟩ := hwaits first rest hqueue
          rw [client_processQueue hv hqueue hj hfd] at hclient
          cases hclient
          simp [work, Buffer.length, hwaiting]
  | @answered first rest i output hqueue hi hfd hempty hencode =>
      obtain ⟨x, hserves⟩ := processQueue_serves ht hv hqueue hi hfd hempty hencode
      exact Serves.simulated_kept hserves rfl rfl ht hv hi
        (hobserve (client_processQueue hv hqueue hi hfd))
  | @failed first rest i output e hqueue hi hfd hempty hencode =>
      obtain ⟨x, hserves⟩ := processQueue_serves ht hv hqueue hi hfd hempty hencode
      exact Serves.simulated_removed hserves rfl ht hv hi
        (hobserve (client_processQueue hv hqueue hi hfd))

/-! ## The simulation -/

/-- **Every step of the server is something the service may do.** -/
theorem Move.simulated (hmove : Move host s e s') (hs : s.Valid host)
    (ht : s.world.Tracks host t) : Simulated host s t e s' := by
  have hw := hs.world
  have hpc := hs.pc
  cases hmove with
  | @process stop w env released again w' hprocess =>
      have hspec := processQueue_spec hw env released
      rw [hprocess] at hspec
      exact hspec.simulated ht hw
  | @read entry listener todo stop w outcome env released result hread =>
      obtain ⟨iteration, w'⟩ := result
      obtain ⟨x, hserves⟩ := readClient_serves ht hw hpc.1.1 hread
      exact continueVisit_simulated rfl (fun _ _ _ h => by cases h) hserves ht hw hpc.1.1
  | @send entry listener todo stop w outcome released result hsend =>
      obtain ⟨iteration, w'⟩ := result
      obtain ⟨x, hserves⟩ := writeClient_serves ht hw hpc.1.1 hsend
      exact continueVisit_simulated rfl (fun _ _ _ h => by cases h) hserves ht hw hpc.1.1
  | @check entry listener todo stop w released =>
      by_cases hbroken : entry.revents.broken = true
      · simp only [hbroken, if_true]
        exact ht.simulated_remove (i := entry.slot) hw rfl rfl rfl
      · simp only [hbroken]
        exact ht.simulated_silent rfl (observe_eq_nil (fun _ _ _ h => by cases h) (fun _ _ => rfl)
          fun _ h => h)
  | accept haccept => exact acceptClients_simulated ht hw haccept
  | @close result next stop w released hnext =>
      refine ht.simulated_remove (i := ⟨next, hnext⟩) hw rfl rfl ?_
      simp only [observe, State.client, hnext, dite_true]
  | shutdown =>
      have hfree : ∀ i, ¬ World.Live _ i := hpc
      exact ⟨t, .nil, ht.received, ht.sent, fun i hi => absurd hi (hfree i), ht.opened, ht.fresh⟩
  | _ =>
      exact ht.simulated_silent rfl (observe_eq_nil (fun _ _ _ h => by cases h) (fun _ _ => rfl)
        fun _ h => h)

/-- The states of the server and of the service that go together. -/
structure Implements (host : Host) (s : State) (t : Connections) : Prop where
  valid : s.Valid host
  tracks : s.world.Tracks host t

theorem implements_start (openFds : Finset Int) (stopRequested : Bool) :
    Implements host (.start openFds stopRequested) fun _ => .fresh where
  valid := valid_start openFds stopRequested
  tracks :=
    ⟨fun _ => rfl, fun _ => rfl, fun _ h => absurd rfl h, fun _ h => (by cases h), fun _ _ => rfl⟩

theorem observe_simulation (host : Host) :
    StepSystem.Simulation (server host) (requestService host) observe (Implements host) where
  init := by
    rintro s ⟨openFds, stopRequested, rfl⟩
    exact ⟨fun _ => .fresh, fun _ => rfl, implements_start openFds stopRequested⟩
  step s t e s' h hstep := by
    have hmove := step_move hstep
    obtain ⟨t', hrun, htracks⟩ := hmove.simulated h.valid h.tracks
    exact ⟨t', hrun, hmove.valid h.valid, htracks⟩

/-- **The poll server implements the request service.** What the outside sees of any run is something
the service may do. On every connection the requests that are run in it are the first that have arrived,
and what is sent is a front of their responses that lacks at most some of the last. The run accounts for
every byte the server has read and sent; a connection is open as long as it has a slot, and when the
server has returned none is. -/
theorem implements_requestService {openFds : Finset Int} {stopRequested : Bool}
    {as : List (Nat × Observation)}
    (h : (server host).Trace observe (.start openFds stopRequested) as s) :
    ∃ t, (requestService host).Run (fun _ => .fresh) as t ∧
      (∀ c, (t c).Ok requestCodec (respond host) ∧
        (t c).received = receives (StepSystem.member c as) ∧
        (t c).ran = runs (StepSystem.member c as) ∧ (t c).sent = sends (StepSystem.member c as)) ∧
      (∀ c, (t c).received = s.world.received c ∧ (t c).sent = s.world.sent c) ∧
      (∀ c, (t c).status = .opened ↔ ∃ i, s.world.Live i ∧ (s.world.clients i).conn = c) ∧
      (∀ result, s.pc = .finished result → ∀ c, (t c).status ≠ .opened) := by
  obtain ⟨t, hrun, hvalid, htracks⟩ :=
    (observe_simulation host).trace (implements_start openFds stopRequested) h
  refine ⟨t, hrun, trace_ok hrun, fun c => ⟨htracks.received c, htracks.sent c⟩,
    fun c => ⟨htracks.opened c, ?_⟩, ?_⟩
  · rintro ⟨i, hi, rfl⟩
    obtain ⟨pending, hserving, -⟩ := htracks.serving i hi
    exact hserving.opened
  · intro result hpc c hopened
    obtain ⟨i, hi, -⟩ := htracks.opened c hopened
    have hfree := hvalid.pc
    rw [hpc] at hfree
    exact hfree i hi

/-- A run of the server with its trace, with descriptor 3 for its listener. -/
theorem server_traces (host : Host) (es : List Event)
    (test : List (Nat × Observation) → State → Bool)
    (h : (StepSystem.execTrace (step host) observe (.start {3} false) es).any
      (fun p => test p.1 p.2) = true) :
    ∃ as s, (server host).Trace observe (.start {3} false) as s ∧ test as s = true :=
  StepSystem.exists_trace h

/-- A client connects, sends a `PWD` request, and the server runs it. -/
theorem implements_requestService_run : ∃ t : Connections,
    (requestService plainHost).Run (fun _ => .fresh)
      [(0, .opens), (0, .receives pwdFrame), (0, .runs pwdRequest)] t ∧
    (t 0).received = pwdFrame ∧ (t 0).ran = [pwdRequest] ∧ (t 0).status = .opened := by
  obtain ⟨as, s, htrace, hp⟩ := server_traces plainHost (connectRound ++ requestRound)
    (fun as s => as == [(0, .opens), (0, .receives pwdFrame), (0, .runs pwdRequest)] &&
      s.world.Live slot0 && (s.world.clients slot0).conn == 0 && s.world.received 0 == pwdFrame)
    (by decide +kernel)
  simp only [Bool.and_eq_true, decide_eq_true_eq, beq_iff_eq] at hp
  obtain ⟨⟨⟨rfl, hlive⟩, hconn⟩, hreceived⟩ := hp
  obtain ⟨t, hrun, hok, hbytes, hopened, -⟩ := implements_requestService htrace
  obtain ⟨-, -, hran, -⟩ := hok 0
  exact ⟨t, hrun, (hbytes 0).1.trans hreceived, hran, (hopened 0).mpr ⟨slot0, hlive, hconn⟩⟩

end WireCommand.Uds
