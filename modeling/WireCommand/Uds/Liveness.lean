import WireCommand.Uds.Attention
import WireCommand.Uds.Order

/-!
# Every request is answered

What the accounts of a connection leave open is whether its requests are answered at last. The server
serves one request at a time and one queue for all, so a request waits for the clients ahead of it to
take their responses. The environment has to do its part for that: if the server asks `poll` for a
client's output again and again it is reported, if it calls `send` again and again that is not refused
each time, and calls are not interrupted for ever. Then every request that was read is answered, unless
its connection is closed.

* The server comes back to its queue again and again (`takes_turn`): a round ends, and `poll` returns.
* A client's output is sent at last (`takes_output`, `output_drained`): the server asks for it and makes
  the call (`Obliging.calls_again`), and what `send` takes leaves less of it.
* The requests that were ahead of the last one that counts get fewer (`Behind`, `Move.behind`), until
  none is left: the head cannot stay at the head once its client's output is sent.
-/

namespace WireCommand.Uds

open Foundation Foundation.Framing Protocol

variable {host : Host} {w w' : World} {i j : Slot} {s s' : State} {e : Event}

/-! ## The turn of the queue -/

/-- Between the turn of the queue and the end of `poll`. -/
def Pc.behindTurn : Pc → Bool
  | .buildPollList => true
  | .polling _ _ _ => true
  | _ => false

/-- How many steps the turn of the queue is away, at most. -/
def State.untilTurn (s : State) : Nat :=
  match s.pc with
  | .buildPollList => roundLimit + 2
  | .polling _ _ _ => roundLimit + 1
  | _ => s.remaining

theorem untilTurn_eq (h : s.pc.behindTurn = false) : s.untilTurn = s.remaining := by
  obtain ⟨pc, stop, w⟩ := s
  cases pc with
  | buildPollList | polling => cases h
  | _ => rfl

/-- Only through the turn of the queue does the server come to `poll`. -/
theorem Move.behindTurn (h : Move host s e s') (hidle : e.idle = false)
    (hpc : s.pc ≠ .processQueue) (hs : s.pc.behindTurn = false) : s'.pc.behindTurn = false := by
  cases h with
  | signal => cases hidle
  | process => exact absurd rfl hpc
  | build | interrupted | pollFailed | listenerBroken | ready => cases hs
  | served => simp only; split <;> rfl
  | visit => simp only [Uds.visit, afterRead]; split <;> rfl
  | @read _ _ _ _ _ _ _ _ result => obtain ⟨iteration, w'⟩ := result; cases iteration <;> rfl
  | @send _ _ _ _ _ _ _ result => obtain ⟨iteration, w'⟩ := result; cases iteration <;> rfl
  | accept => simp only; split <;> rfl
  | _ => rfl

/-- Every step brings the turn of the queue closer, but for interruptions and rejections. -/
theorem Move.untilTurn (h : Move host s e s') (hs : s.Rounds host) (hs' : s'.Rounds host)
    (hidle : e.idle = false) (hpc : s.pc ≠ .processQueue) : s'.untilTurn < s.untilTurn := by
  have hle : s'.remaining ≤ roundLimit := hs'.valid.remaining_le hs'.entries
  cases hbehind : s.pc.behindTurn with
  | true =>
      cases h with
      | build => exact Nat.lt_succ_self _
      | interrupted | pollFailed | listenerBroken | ready => exact Nat.lt_succ_of_le hle
      | signal => cases hidle
      | process => exact absurd rfl hpc
      | _ => cases hbehind
  | false =>
      have hawake : s.pc.awake = true := by
        cases hs : s.pc with
        | polling => rw [hs] at hbehind; cases hbehind
        | _ => rfl
      have hremaining := h.remaining hs.valid hawake
      rw [hidle, if_neg Bool.false_ne_true] at hremaining
      rw [untilTurn_eq hbehind, untilTurn_eq (h.behindTurn hidle hpc hbehind)]
      exact hremaining

variable (x : (server host).Execution)

/-- **The queue has its turn again and again**, if calls are not interrupted for ever. -/
theorem takes_turn (hs : ∀ m, (x.state m).Rounds host) {N : Nat}
    (hidle : ∀ m, N ≤ m → (x.event m).idle = false) {n : Nat} (hn : N ≤ n) :
    ∃ m, n ≤ m ∧ (x.state m).pc = .processQueue := by
  induction hsteps : (x.state n).untilTurn using Nat.strong_induction_on generalizing n with
  | _ k ih =>
      by_cases hpc : (x.state n).pc = .processQueue
      · exact ⟨n, le_refl n, hpc⟩
      · have hlt := (step_move (x.step n)).untilTurn (hs n) (hs (n + 1)) (hidle n hn) hpc
        obtain ⟨m, hm, hturn⟩ := ih _ (hsteps ▸ hlt) (by omega) rfl
        exact ⟨m, by omega, hturn⟩

/-- In its turn the server looks at the head of the queue. -/
theorem Move.in_turn (h : Move host s e s') (hidle : e.idle = false) (hpc : s.pc = .processQueue) :
    ∃ env released, e = .process env released := by
  cases h with
  | signal => cases hidle
  | process => exact ⟨_, _, rfl⟩
  | visit => cases hpc
  | _ => cases hpc

/-! ## Output -/

/-- The connection is there, and output waits to be sent on it. -/
def World.Owes (w : World) (c : Nat) : Prop :=
  ∃ i, w.Live i ∧ (w.clients i).conn = c ∧ (w.clients i).output.data ≠ []

/-- The step takes no request off the queue. -/
def NoPop (host : Host) (s : State) (e : Event) : Prop :=
  ∀ env released, e = .process env released → (processQueue host s.world env released).1 = false

/-- What a step does to the output of a client that it leaves in place, when it runs no request for
it. -/
structure Drains (i : Slot) (w w' : World) : Prop where
  live : w'.Live i
  fd : (w'.clients i).fd = (w.clients i).fd
  conn : (w'.clients i).conn = (w.clients i).conn
  output : (w'.clients i).output.length < (w.clients i).output.length ∨
    ((w'.clients i).output = (w.clients i).output ∧
      w'.sent (w.clients i).conn = w.sent (w.clients i).conn)

theorem Drains.refl (hi : w.Live i) : Drains i w w := ⟨hi, rfl, rfl, .inr ⟨rfl, rfl⟩⟩

/-- Another client is served. -/
theorem Touches.drains_other (ht : Touches j w w') (hv : w.Valid host) (hi : w.Live i)
    (hj : w.Live j) (hne : i ≠ j) : Drains i w w' where
  live := ht.live.mpr hi
  fd := ht.fd_eq i
  conn := ht.conn_eq i
  output := by
    have hconn : (w.clients i).conn ≠ (w.clients j).conn := fun h => hne (hv.conn_inj i j hi hj h)
    exact .inr ⟨by rw [ht.clients i hne], ht.sent _ hconn⟩

/-- Another client is removed. -/
theorem Drains.remove_other (h : Drains i w w') (hne : i ≠ j) (released : Bool) :
    Drains i w (removeClient w' j released) where
  live := (removeClient_live released).mpr ⟨h.live, hne⟩
  fd := by rw [removeClient_clients released hne, h.fd]
  conn := by rw [removeClient_clients released hne, h.conn]
  output := by
    rw [removeClient_clients released hne, removeClient_sent]
    exact h.output

/-- The visit of a client, of which another one notices nothing and which it does not survive when it
fails. -/
theorem continueVisit_drains {entry : PollEntry} {listener : Revents} {todo : List PollEntry}
    {next : Pc} {released : Bool} {iteration : Iteration} (hv : s.world.Valid host)
    (hj : s.world.Live entry.slot) (hi : s.world.Live i) (ht : Touches entry.slot s.world w')
    (hown : iteration ≠ .failed → Drains entry.slot s.world w')
    (hopen : (continueVisit s entry listener todo next released (iteration, w')).world.Connected
      (s.world.clients i).conn) :
    Drains i s.world (continueVisit s entry listener todo next released (iteration, w')).world := by
  by_cases hne : i = entry.slot
  · subst hne
    cases iteration with
    | again => exact hown (by decide)
    | done => exact hown (by decide)
    | failed => exact absurd hopen (not_connected_removed hv hi ht released)
  · have hdrains := ht.drains_other hv hi hj hne
    cases iteration with
    | again | done => exact hdrains
    | failed => exact hdrains.remove_other hne released

theorem readClient_drains {outcome : ReadOutcome} {env : ReadEnv} {iteration : Iteration}
    (hv : w.Valid host) (hi : w.Live i) (h : readClient w i outcome env = some (iteration, w')) :
    Drains i w w' := by
  have ht := (readClient_spec hv hi h).1
  refine ⟨ht.live.mpr hi, ht.fd, ht.conn, .inr ?_⟩
  cases readClient_read hv hi h with
  | eof | interrupted | wouldBlock | failed | lost _ => exact ⟨rfl, rfl⟩
  | parsed _ _ _ _ _ _ =>
      exact ⟨by simp [World.afterRead, World.setClient], rfl⟩

theorem writeClient_drains {outcome : SendOutcome} {iteration : Iteration} (hv : w.Valid host)
    (hi : w.Live i) (h : writeClient w i outcome = some (iteration, w')) : Drains i w w' := by
  have ht := (writeClient_spec hv hi h).1
  refine ⟨ht.live.mpr hi, ht.fd, ht.conn, ?_⟩
  have hspec := writeClient_wrote h
  cases hspec with
  | nothing | interrupted | wouldBlock | failed => exact .inr ⟨rfl, rfl⟩
  | sent _ _ =>
      rcases writeClient_again h with ⟨hinterrupted, -⟩ | hlt
      · cases hinterrupted
      · exact .inl hlt

/-- **Output only gets less**, as long as no request is run for the client. -/
theorem Move.drains (h : Move host s e s') (hs : s.Valid host) (hi : s.world.Live i)
    (hopen : s'.world.Connected (s.world.clients i).conn)
    (hstill : (s.world.clients i).output.data ≠ [] ∨ NoPop host s e) :
    Drains i s.world s'.world := by
  have hw := hs.world
  have hpc := hs.pc
  cases h with
  | @process stop w env released again w' hprocess =>
      have hspec := processQueue_spec hw env released
      rw [hprocess] at hspec
      cases hspec with
      | waits => exact .refl hi
      | @answered first rest j output hqueue hj hfd hempty _ =>
          have hne : i ≠ j := by
            rintro rfl
            rcases hstill with houtput | hnopop
            · exact houtput hempty
            · have := hnopop env released rfl
              rw [hprocess] at this
              cases this
          exact (touches_afterDequeue hw hqueue hfd output).drains_other hw hi hj hne
      | @failed first rest j output errno hqueue hj hfd hempty _ =>
          have ht := touches_afterDequeue hw hqueue hfd output
          by_cases hne : i = j
          · subst hne
            exact absurd hopen (not_connected_removed hw hi ht released)
          · exact (ht.drains_other hw hi hj hne).remove_other hne released
  | @read entry listener todo stop w outcome env released result hread =>
      obtain ⟨iteration, w'⟩ := result
      exact continueVisit_drains hw hpc.1.1 hi (readClient_spec hw hpc.1.1 hread).1
        (fun _ => readClient_drains hw hpc.1.1 hread) hopen
  | @send entry listener todo stop w outcome released result hsend =>
      obtain ⟨iteration, w'⟩ := result
      exact continueVisit_drains hw hpc.1.1 hi (writeClient_spec hw hpc.1.1 hsend).1
        (fun _ => writeClient_drains hw hpc.1.1 hsend) hopen
  | @check entry listener todo stop w released =>
      by_cases hbroken : entry.revents.broken = true
      · simp only [hbroken, if_true] at hopen ⊢
        by_cases hne : i = entry.slot
        · subst hne
          exact absurd hopen (not_connected_removed hw hi (.refl hw) released)
        · exact (Drains.refl hi).remove_other hne released
      · simp only [hbroken]
        exact .refl hi
  | @accept stop w outcome nonblockingOk released again w' haccept =>
      rcases acceptClients_arrival haccept with rfl | ⟨fd, -, harrival⟩
      · exact .refl hi
      · cases harrival with
        | rejected => exact ⟨hi, rfl, rfl, .inr ⟨rfl, rfl⟩⟩
        | added j hj _ _ =>
            have hne : i ≠ j := by
              rintro rfl
              exact hi hj
            have hclient := setClient_of_ne (w.connect fd) (.connected fd w.nextConn) hne
            exact ⟨by rw [World.Live, hclient]; exact hi, by rw [hclient]; rfl,
              by rw [hclient]; rfl, .inr ⟨by rw [hclient]; rfl, rfl⟩⟩
  | @close result next stop w released hnext =>
      by_cases hne : i = ⟨next, hnext⟩
      · subst hne
        exact absurd hopen (not_connected_removed hw hi (.refl hw) released)
      · exact (Drains.refl hi).remove_other hne released
  | shutdown => exact absurd hi (hpc i)
  | _ => exact .refl hi

theorem World.Owes.connected {c : Nat} (h : w.Owes c) : w.Connected c := by
  obtain ⟨i, hi, hconn, -⟩ := h
  exact ⟨i, hi, hconn⟩

/-- Some of the output of a connection is sent again and again, as long as there is any. -/
def Takes (c : Nat) : Prop :=
  ∀ n, (∀ m, n ≤ m → (x.state m).world.Owes c) →
    ∃ m, n ≤ m ∧ (x.state (m + 1)).world.sent c ≠ (x.state m).world.sent c

/-- A call of `send` that does not return `EAGAIN` has sent something, or the client is removed. -/
theorem Move.sends {c : Nat} (hmove : Move host s e s') (hs : s.Valid host)
    (hcalls : Calls .output c s) (howes : s.world.Owes c) (hc : s'.world.Connected c)
    (hidle : e.idle = false) (hblocks : e.blocks = false) :
    s'.world.sent c ≠ s.world.sent c := by
  obtain ⟨entry, listener, todo, hpc, hconn⟩ := hcalls
  have hpcok := hs.pc
  rw [hpc] at hpcok
  have hseat : (s.world.clients entry.slot).conn = c := hpcok.1.2.2.trans hconn
  obtain ⟨i, hi, hi', houtput⟩ := howes
  obtain rfl : i = entry.slot := hs.world.conn_inj i entry.slot hi hpcok.1.1 (hi'.trans hseat.symm)
  cases hmove with
  | signal _ => cases hidle
  | @send entry' listener' todo' stop w outcome released result hsend =>
      cases hpc
      cases writeClient_wrote hsend with
      | nothing hempty => exact absurd hempty houtput
      | interrupted => cases hidle
      | wouldBlock => cases hblocks
      | failed =>
          refine absurd ?_ (not_connected_removed hs.world hi (.refl hs.world) released)
          rw [hi']
          exact hc
      | @sent count output hdata hmax hcount =>
          show Function.update w.sent _ _ c ≠ w.sent c
          rw [← hi', Function.update_self]
          intro hsame
          have hnil := List.append_right_eq_self.mp hsame
          have hlength := congrArg List.length hnil
          rw [List.length_take, List.length_nil] at hlength
          have hle : count ≤ (w.clients entry.slot).output.data.length := hcount.2
          omega
  | visit => cases hpc
  | _ => cases hpc

/-- **The server sends what its clients take.** -/
theorem takes_output (hinit : (server host).init (x.state 0)) {N : Nat}
    (hidle : ∀ m, N ≤ m → (x.event m).idle = false) {c : Nat}
    (hobliging : Obliging x .output c fun s => s.world.Owes c) : Takes x c := by
  intro n howes
  have hs : ∀ m, (x.state m).Valid host := fun m => valid_of_reachable (x.reachable hinit m)
  have howes' : ∀ m, max n N ≤ m → (x.state m).world.Owes c := fun m hm => howes m (by omega)
  have hidle' : ∀ m, max n N ≤ m → (x.event m).idle = false := fun m hm => hidle m (by omega)
  obtain ⟨i, hseated⟩ := seated_of_connected x hs fun m hm => (howes' m hm).connected
  have houtput : ∀ m, max n N ≤ m → ((x.state m).world.clients i).output.data ≠ [] := by
    intro m hm
    obtain ⟨j, hj, hconn, houtput⟩ := howes' m hm
    obtain rfl : j = i := (hs m).world.conn_inj j i hj (hseated m hm).1
      (hconn.trans (hseated m hm).2.symm)
    exact houtput
  obtain ⟨m, hm, hcalls, hblocks⟩ := hobliging.called (max n N) howes'
    (hobliging.calls_again x hinit hidle' hseated howes' fun _ => houtput)
  exact ⟨m, by omega, (step_move (x.step m)).sends (hs m) hcalls (howes' m hm)
    (howes' (m + 1) (by omega)).connected (hidle' m hm) hblocks⟩

/-- **The output of a client is sent at last**, if the client takes it. -/
theorem output_drained (hs : ∀ m, (x.state m).Valid host) {c : Nat} (htakes : Takes x c) (n : Nat) :
    ∃ m, n ≤ m ∧ ¬ (x.state m).world.Owes c := by
  by_contra howes
  push Not at howes
  obtain ⟨i, hi, hconn, -⟩ := howes n (le_refl n)
  -- the length of the output can only get less, so at last nothing is sent any more
  obtain ⟨N, l, hN, hrests⟩ := x.settles
    (fun s l => ∃ i, s.world.Live i ∧ (s.world.clients i).conn = c ∧
      (s.world.clients i).output.length = l)
    (fun m _ => (x.state (m + 1)).world.sent c = (x.state m).world.sent c) id (n := n)
    (fun m l hm h => by
      obtain ⟨i, hi, rfl, rfl⟩ := h
      obtain ⟨j, hj, hjconn, houtput⟩ := howes m hm
      obtain rfl : j = i := (hs m).world.conn_inj j i hj hi hjconn
      have hdrains := (step_move (x.step m)).drains (hs m) hi (howes (m + 1) (by omega)).connected
        (.inl houtput)
      refine ⟨_, ⟨j, hdrains.live, hdrains.conn, rfl⟩, ?_⟩
      rcases hdrains.output with hlt | ⟨hsame, hsent⟩
      · exact .inr hlt
      · exact .inl ⟨by rw [hsame], hsent⟩) ⟨i, hi, hconn, rfl⟩
  obtain ⟨m, hm, hsent⟩ := htakes N fun m hm => howes m (by omega)
  exact hsent (hrests m hm).2

/-! ## The requests ahead -/

/-- `rs` are the first requests of a client. The queue has a part in which all of them are that have
not been run, and a part behind it. -/
structure Behind (rs : List Request) (w : World) (i : Slot) (old new : RequestQueue) : Prop where
  live : w.Live i
  queue : w.queue = old ++ new
  received : ∃ more later,
    w.received (w.clients i).conn =
      requestCodec.encodeAll (rs ++ more ++ later) ++ (w.clients i).input.data ∧
    Queue.ofClient new (w.clients i).fd =
      later.map (queued (w.clients i).fd (w.clients i).conn)

/-- Requests join the queue, those of the client among them as they are read from it. -/
theorem Behind.join {rs parsed : List Request} {old new ext : RequestQueue}
    (h : Behind rs w i old new) (ht : Touches j w w') (hqueue : w'.queue = w.queue ++ ext)
    (hext : Queue.ofClient ext (w.clients i).fd =
      parsed.map (queued (w.clients i).fd (w.clients i).conn))
    (hreceived : ∀ requests, w.received (w.clients i).conn =
        requestCodec.encodeAll requests ++ (w.clients i).input.data →
      w'.received (w.clients i).conn =
        requestCodec.encodeAll (requests ++ parsed) ++ (w'.clients i).input.data) :
    Behind rs w' i old (new ++ ext) where
  live := ht.live.mpr h.live
  queue := by rw [hqueue, h.queue, List.append_assoc]
  received := by
    obtain ⟨more, later, hsplit, hlater⟩ := h.received
    refine ⟨more, later ++ parsed, ?_, ?_⟩
    · rw [ht.conn_eq, hreceived _ hsplit, List.append_assoc]
    · rw [ht.conn_eq, ht.fd_eq, Queue.ofClient_append, hlater, hext, List.map_append]

/-- Nothing happens to the queue, and nothing is read from the client. -/
theorem Behind.touch {rs : List Request} {old new : RequestQueue} (h : Behind rs w i old new)
    (ht : Touches j w w') (hqueue : w'.queue = w.queue)
    (hreceived : w'.received (w.clients i).conn = w.received (w.clients i).conn)
    (hinput : (w'.clients i).input = (w.clients i).input) : Behind rs w' i old new := by
  have hnone : Queue.ofClient [] (w.clients i).fd =
      ([] : List Request).map (queued (w.clients i).fd (w.clients i).conn) := rfl
  have hjoin : Behind rs w' i old (new ++ []) :=
    h.join ht (by rw [hqueue, List.append_nil]) hnone
      fun requests hsplit => by rw [hreceived, hinput, hsplit, List.append_nil]
  rwa [List.append_nil] at hjoin

/-- Another client is removed, with its requests. -/
theorem Behind.remove {rs : List Request} {old new : RequestQueue} (h : Behind rs w i old new)
    (hj : w.Live j) (hne : i ≠ j) (hfd : (w.clients i).fd ≠ (w.clients j).fd) (released : Bool) :
    Behind rs (removeClient w j released) i (Queue.discardClient old (w.clients j).fd)
      (Queue.discardClient new (w.clients j).fd) where
  live := (removeClient_live released).mpr ⟨h.live, hne⟩
  queue := by
    rw [removeClient_eq hj]
    show Queue.discardClient w.queue _ = _
    rw [h.queue]
    exact List.filter_append ..
  received := by
    obtain ⟨more, later, hsplit, hlater⟩ := h.received
    rw [removeClient_clients released hne]
    refine ⟨more, later, ?_, ?_⟩
    · rw [removeClient_eq hj]
      exact hsplit
    · rw [Queue.ofClient_discardClient_of_ne hfd, hlater]

/-- The head is taken off the queue. -/
theorem Behind.pop {rs : List Request} {old new rest : RequestQueue} {first : QueuedRequest}
    (h : Behind rs w i old new) (ht : Touches j w w') (hqueue : w.queue = first :: rest)
    (hqueue' : w'.queue = rest)
    (hreceived : w'.received (w.clients i).conn = w.received (w.clients i).conn)
    (hinput : (w'.clients i).input = (w.clients i).input) :
    ∃ new', Behind rs w' i old.tail new' := by
  obtain ⟨more, later, hsplit, hlater⟩ := h.received
  have hsplit' : w'.received (w'.clients i).conn =
      requestCodec.encodeAll (rs ++ more ++ later) ++ (w'.clients i).input.data := by
    rw [ht.conn_eq, hreceived, hinput, hsplit]
  cases old with
  | cons first' old =>
      have hsame := hqueue.symm.trans h.queue
      rw [List.cons_append, List.cons.injEq] at hsame
      refine ⟨new, ht.live.mpr h.live, hqueue'.trans hsame.2, more, later, hsplit', ?_⟩
      rw [ht.conn_eq, ht.fd_eq, hlater]
  | nil =>
      have hnew : new = first :: rest := h.queue.symm.trans hqueue
      subst hnew
      by_cases hfd : first.clientFd = (w.clients i).fd
      · -- it is the next request of the client itself
        have hhead : Queue.ofClient (first :: rest) (w.clients i).fd =
            first :: Queue.ofClient rest (w.clients i).fd := by
          simp [Queue.ofClient, hfd]
        rw [hhead] at hlater
        cases later with
        | nil => cases hlater
        | cons r later =>
            rw [List.map_cons, List.cons.injEq] at hlater
            refine ⟨rest, ht.live.mpr h.live, hqueue', more ++ [r], later, ?_, ?_⟩
            · simpa using hsplit'
            · rw [ht.conn_eq, ht.fd_eq, hlater.2]
      · refine ⟨rest, ht.live.mpr h.live, hqueue', more, later, hsplit', ?_⟩
        have hskip : Queue.ofClient (first :: rest) (w.clients i).fd =
            Queue.ofClient rest (w.clients i).fd := by
          simp [Queue.ofClient, hfd]
        rw [ht.conn_eq, ht.fd_eq, ← hlater, hskip]

/-- What a step does to the requests ahead: nothing, and then it takes none of them off the queue, or
there are fewer of them. -/
def Fewer (host : Host) (s : State) (e : Event) (old old' : RequestQueue) : Prop :=
  (old' = old ∧ (old ≠ [] → NoPop host s e)) ∨ old'.length < old.length

theorem fewer_same {old : RequestQueue} (h : NoPop host s e) : Fewer host s e old old :=
  .inl ⟨rfl, fun _ => h⟩

theorem fewer_tail (old : RequestQueue) : Fewer host s e old old.tail := by
  cases old with
  | nil => exact .inl ⟨rfl, fun h => absurd rfl h⟩
  | cons first old => exact .inr (Nat.lt_succ_self _)

/-- Some of them leave with their client. -/
theorem Fewer.discard {old old' : RequestQueue} (h : Fewer host s e old old') (fd : Int) :
    Fewer host s e old (Queue.discardClient old' fd) := by
  have hle := Queue.discardClient_length_le old' fd
  rcases h with ⟨rfl, hnopop⟩ | hlt
  · by_cases hlength : (Queue.discardClient old' fd).length = old'.length
    · exact .inl ⟨List.filter_sublist.eq_of_length hlength, hnopop⟩
    · exact .inr (by omega)
  · exact .inr (by omega)

/-- The requests ahead of a client's, after a step. -/
def Advances (host : Host) (rs : List Request) (i : Slot) (old : RequestQueue) (s : State) (e : Event)
    (w' : World) : Prop :=
  ∃ old' new', Behind rs w' i old' new' ∧
    (w'.clients i).conn = (s.world.clients i).conn ∧ Fewer host s e old old'

/-- Another client is served, and may be removed for it. -/
theorem continueVisit_advances {rs : List Request} {old : RequestQueue} {entry : PollEntry}
    {listener : Revents} {todo : List PollEntry} {next : Pc} {released : Bool}
    {iteration : Iteration} (hv : s.world.Valid host) (hi : s.world.Live i)
    (hj : s.world.Live entry.slot) (ht : Touches entry.slot s.world w')
    (hb : iteration ≠ .failed ∨ i ≠ entry.slot → ∃ new, Behind rs w' i old new)
    (hnopop : NoPop host s e)
    (hopen : (continueVisit s entry listener todo next released (iteration, w')).world.Connected
      (s.world.clients i).conn) :
    Advances host rs i old s e
      (continueVisit s entry listener todo next released (iteration, w')).world := by
  cases iteration with
  | again | done =>
      obtain ⟨new, hb⟩ := hb (.inl (by decide))
      exact ⟨old, new, hb, ht.conn_eq i, fewer_same hnopop⟩
  | failed =>
      have hne : i ≠ entry.slot := by
        rintro rfl
        exact not_connected_removed hv hi ht released hopen
      obtain ⟨new, hb⟩ := hb (.inr hne)
      have hfd : (w'.clients i).fd ≠ (w'.clients entry.slot).fd := by
        rw [ht.fd_eq, ht.fd_eq]
        exact fun h => hne (hv.fd_inj i _ hi hj h)
      refine ⟨_, _, hb.remove (ht.live.mpr hj) hne hfd released, ?_,
        (fewer_same hnopop).discard _⟩
      show ((removeClient w' entry.slot released).clients i).conn = _
      rw [removeClient_clients released hne, ht.conn_eq]

theorem readClient_behind {rs : List Request} {old new : RequestQueue} {outcome : ReadOutcome}
    {env : ReadEnv} {iteration : Iteration} (hv : w.Valid host) (hj : w.Live j)
    (h : readClient w j outcome env = some (iteration, w')) (hb : Behind rs w i old new)
    (hstays : iteration ≠ .failed ∨ i ≠ j) : ∃ new', Behind rs w' i old new' := by
  have ht := (readClient_spec hv hj h).1
  have hconn : i ≠ j → (w.clients i).conn ≠ (w.clients j).conn :=
    fun hne heq => hne (hv.conn_inj i j hb.live hj heq)
  cases readClient_read hv hj h with
  | eof | interrupted | wouldBlock | failed => exact ⟨new, hb⟩
  | lost _ =>
      have hne := hstays.resolve_left fun h => h rfl
      exact ⟨new, hb.touch ht rfl (ht.received _ (hconn hne)) rfl⟩
  | @parsed bytes appended input parsed result hdata hmax hsplit hlen henqueue hstop =>
      by_cases hne : i = j
      · subst hne
        refine ⟨_, hb.join ht rfl (ofClient_queued_self _ _ parsed) fun requests hreceived => ?_⟩
        simp only [World.afterRead, World.setClient, World.noteReceived, Function.update_self]
        rw [hreceived, List.append_assoc, ← hdata, hsplit, Codec.encodeAll_append,
          List.append_assoc]
      · have hfd : (w.clients i).fd ≠ (w.clients j).fd := fun h => hne (hv.fd_inj i j hb.live hj h)
        have hnone : Queue.ofClient (parsed.map (queued (w.clients j).fd (w.clients j).conn))
            (w.clients i).fd =
              ([] : List Request).map (queued (w.clients i).fd (w.clients i).conn) :=
          ofClient_queued_of_ne hfd _ _
        refine ⟨_, hb.join ht rfl hnone fun requests hreceived => ?_⟩
        rw [ht.received _ (hconn hne), ht.clients i hne, hreceived, List.append_nil]

theorem writeClient_behind {rs : List Request} {old new : RequestQueue} {outcome : SendOutcome}
    {iteration : Iteration} (hv : w.Valid host) (hj : w.Live j)
    (h : writeClient w j outcome = some (iteration, w')) (hb : Behind rs w i old new) :
    Behind rs w' i old new := by
  have ht := (writeClient_spec hv hj h).1
  cases writeClient_wrote h with
  | nothing | interrupted | wouldBlock | failed => exact hb
  | sent _ _ =>
      exact hb.touch ht rfl rfl (afterSend_input _ _)

/-- A step that does not concern the queue takes nothing off it. -/
theorem noPop_of_ne (h : ∀ env released, e ≠ .process env released) : NoPop host s e :=
  fun env released he => absurd he (h env released)

/-- **There are never more requests ahead**, and fewer when one is taken off the queue. -/
theorem Move.behind {rs : List Request} {old new : RequestQueue} (h : Move host s e s')
    (hs : s.Valid host) (hb : Behind rs s.world i old new)
    (hopen : s'.world.Connected (s.world.clients i).conn) : Advances host rs i old s e s'.world := by
  have hw := hs.world
  have hpc := hs.pc
  have hi := hb.live
  -- another client is removed, and nothing else happens
  have hremoved : ∀ {j released}, s'.world = removeClient s.world j released → NoPop host s e →
      Advances host rs i old s e s'.world := by
    intro j released hworld hnopop
    rw [hworld] at hopen ⊢
    by_cases hj : s.world.Live j
    · have hne : i ≠ j := by
        rintro rfl
        exact not_connected_removed hw hi (.refl hw) released hopen
      exact ⟨_, _, hb.remove hj hne (fun h => hne (hw.fd_inj i j hi hj h)) released,
        by rw [removeClient_clients released hne], (fewer_same hnopop).discard _⟩
    · rw [removeClient_of_free hj]
      exact ⟨old, new, hb, rfl, fewer_same hnopop⟩
  cases h with
  | @process stop w env released again w' hprocess =>
      have hspec := processQueue_spec hw env released
      rw [hprocess] at hspec
      cases hspec with
      | waits =>
          refine ⟨old, new, hb, rfl, fewer_same fun env' released' heq => ?_⟩
          cases heq
          rw [hprocess]
      | @answered first rest j output hqueue hj hfd hempty _ =>
          have ht := touches_afterDequeue hw hqueue hfd output
          obtain ⟨new', hb'⟩ := hb.pop ht hqueue rfl rfl (afterDequeue_input _ _)
          exact ⟨old.tail, new', hb', ht.conn_eq i, fewer_tail old⟩
      | @failed first rest j output errno hqueue hj hfd hempty _ =>
          have ht := touches_afterDequeue hw hqueue hfd output
          obtain ⟨new', hb'⟩ := hb.pop ht hqueue rfl rfl (afterDequeue_input _ _)
          have hne : i ≠ j := by
            rintro rfl
            exact not_connected_removed hw hi ht released hopen
          have hfds : ((w.afterDequeue j output rest).clients i).fd ≠
              ((w.afterDequeue j output rest).clients j).fd := by
            rw [ht.fd_eq, ht.fd_eq]
            exact fun h => hne (hw.fd_inj i j hi hj h)
          exact ⟨_, _, hb'.remove (ht.live.mpr hj) hne hfds released,
            by rw [removeClient_clients released hne, ht.conn_eq], (fewer_tail old).discard _⟩
  | @read entry listener todo stop w outcome env released result hread =>
      obtain ⟨iteration, w'⟩ := result
      exact continueVisit_advances hw hi hpc.1.1 (readClient_spec hw hpc.1.1 hread).1
        (readClient_behind hw hpc.1.1 hread hb) (noPop_of_ne fun _ _ h => by cases h) hopen
  | @send entry listener todo stop w outcome released result hsend =>
      obtain ⟨iteration, w'⟩ := result
      exact continueVisit_advances hw hi hpc.1.1 (writeClient_spec hw hpc.1.1 hsend).1
        (fun _ => ⟨new, writeClient_behind hw hpc.1.1 hsend hb⟩)
        (noPop_of_ne fun _ _ h => by cases h) hopen
  | @check entry listener todo stop w released =>
      by_cases hbroken : entry.revents.broken = true
      · exact hremoved (if_pos hbroken) (noPop_of_ne fun _ _ h => by cases h)
      · simp only [hbroken]
        exact ⟨old, new, hb, rfl, fewer_same (noPop_of_ne fun _ _ h => by cases h)⟩
  | @accept stop w outcome nonblockingOk released again w' haccept =>
      have hnopop : NoPop host ⟨.accepting, stop, w⟩ (.accept outcome nonblockingOk released) :=
        noPop_of_ne fun _ _ h => by cases h
      rcases acceptClients_arrival haccept with rfl | ⟨fd, -, harrival⟩
      · exact ⟨old, new, hb, rfl, fewer_same hnopop⟩
      · cases harrival with
        | rejected => exact ⟨old, new, ⟨hb.live, hb.queue, hb.received⟩, rfl, fewer_same hnopop⟩
        | added j hj _ _ =>
            have hne : i ≠ j := by
              rintro rfl
              exact hi hj
            have hclient := setClient_of_ne (w.connect fd) (.connected fd w.nextConn) hne
            refine ⟨old, new, ⟨?_, hb.queue, ?_⟩, ?_, fewer_same hnopop⟩
            · rw [World.Live, hclient]
              exact hi
            · rw [hclient]
              exact hb.received
            · rw [hclient]
              rfl
  | close => exact hremoved rfl (noPop_of_ne fun _ _ h => by cases h)
  | shutdown => exact absurd hi (hpc i)
  | _ => exact ⟨old, new, hb, rfl, fewer_same (noPop_of_ne fun _ _ h => by cases h)⟩

/-! ## Every request -/

/-- When nothing is ahead, all the requests that count have been run. -/
theorem Behind.answered {rs : List Request} {new : RequestQueue} (h : Behind rs w i [] new)
    (hv : w.Valid host) :
    ∃ answered pending, Ledger requestCodec (respond host) (w.received (w.clients i).conn)
      (w.sent (w.clients i).conn) answered pending (w.clients i).input.data
      (w.clients i).output.data ∧ rs <+: answered := by
  obtain ⟨answered, pending, hledger, hpending⟩ := (hv.client i h.live).balanced
  obtain ⟨more, later, hsplit, hlater⟩ := h.received
  refine ⟨answered, pending, hledger, ?_⟩
  have hnew : w.queue = new := h.queue
  -- what waits is what came later
  have hsame : pending = later := by
    rw [hnew, hlater] at hpending
    refine (List.map_injective_iff.mpr ?_ hpending).symm
    intro r r' heq
    simp only [queued, QueuedRequest.mk.injEq, true_and, and_true] at heq
    exact Request.ext heq.1 heq.2
  have hall : answered ++ pending = rs ++ more ++ later :=
    requestCodec.encodeAll_injective
      (List.append_cancel_right (hledger.received_eq.symm.trans hsplit))
  rw [hsame] at hall
  rw [List.append_cancel_right hall]
  exact List.prefix_append _ _

/-- **The head of the queue is run at last**, if its client takes its output. -/
theorem head_served (hs : ∀ m, (x.state m).Rounds host) {N : Nat}
    (hidle : ∀ m, N ≤ m → (x.event m).idle = false) (htakes : ∀ c, Takes x c)
    {first : QueuedRequest} (hhead : ∀ m, N ≤ m → ∃ rest, (x.state m).world.queue = first :: rest)
    (hnopop : ∀ m, N ≤ m → NoPop host (x.state m) (x.event m)) : False := by
  have hclient : ∀ m, N ≤ m → ∃ j, (x.state m).world.Live j ∧
      ((x.state m).world.clients j).fd = first.clientFd ∧
      ((x.state m).world.clients j).conn = first.origin := by
    intro m hm
    obtain ⟨rest, hqueue⟩ := hhead m hm
    exact (hs m).valid.world.origin (by rw [hqueue]; exact List.mem_cons_self)
  obtain ⟨m₁, hm₁, hdrained⟩ := output_drained x (fun m => (hs m).valid) (htakes first.origin) N
  -- no request is run, so what is drained stays so
  have hempty : ∀ m, m₁ ≤ m → ¬ (x.state m).world.Owes first.origin := fun m =>
    x.stays (P := fun s => ¬ s.world.Owes first.origin) (fun m hm hnot howes => by
      obtain ⟨j, hj, -, hconn⟩ := hclient m (by omega)
      have hdrains := (step_move (x.step m)).drains (hs m).valid hj (hconn ▸ howes.connected)
        (.inr (hnopop m (by omega)))
      obtain ⟨j', hj', hconn', houtput'⟩ := howes
      obtain rfl : j' = j := (hs (m + 1)).valid.world.conn_inj j' j hj' hdrains.live
        (hconn'.trans (hdrains.conn.trans hconn).symm)
      have hnil : ((x.state m).world.clients j').output.data = [] := by
        by_contra houtput
        exact hnot ⟨j', hj, hconn, houtput⟩
      rcases hdrains.output with hlt | ⟨hsame, -⟩
      · simp [Buffer.length, hnil] at hlt
      · exact houtput' (hsame ▸ hnil)) hdrained
  obtain ⟨m, hm, hturn⟩ := takes_turn x hs hidle (n := max N m₁) (by omega)
  obtain ⟨env, released, he⟩ := (step_move (x.step m)).in_turn (hidle m (by omega)) hturn
  have hwaits := hnopop m (by omega) env released he
  have hspec := processQueue_spec (hs m).valid.world env released
  obtain ⟨rest, hqueue⟩ := hhead m (by omega)
  generalize hresult : processQueue host (x.state m).world env released = result at hwaits hspec
  cases hspec with
  | waits hw =>
      obtain ⟨j, hj, hfd, houtput⟩ := hw first rest hqueue
      refine hempty m (by omega) ⟨j, hj, ?_, houtput⟩
      exact ((hs m).valid.world.origin_eq hj (by rw [hqueue]; exact List.mem_cons_self) hfd.symm).symm
  | answered => cases hwaits
  | failed => cases hwaits

/-- What was read is answered, if the output of every client is sent. -/
theorem answered_of_takes (hinit : (server host).init (x.state 0)) {N₀ : Nat}
    (hidle : ∀ m, N₀ ≤ m → (x.event m).idle = false) (htakes : ∀ c, Takes x c) {n k : Nat}
    {requests : List Request} (hi : (x.state n).world.Live i)
    (haccounts : Accounts host (x.state n).world i requests k) :
    ∃ m, n ≤ m ∧ (¬ (x.state m).world.Connected ((x.state n).world.clients i).conn ∨
      requests.flatMap (respond host) <+:
        (x.state m).world.sent ((x.state n).world.clients i).conn) := by
  have hs : ∀ m, (x.state m).Rounds host := fun m =>
    (rounds_inductive host).reachable (x.reachable hinit m)
  by_contra hnever
  push Not at hnever
  have hstart : Behind requests (x.state n).world i (x.state n).world.queue [] :=
    ⟨hi, (List.append_nil _).symm, [], [], by simpa using haccounts.received, rfl⟩
  obtain ⟨N, old, hN, hrests⟩ := x.settles
    (fun s old => ∃ j new, (s.world.clients j).conn = ((x.state n).world.clients i).conn ∧
      Behind requests s.world j old new)
    (fun m old => old ≠ [] → NoPop host (x.state m) (x.event m)) List.length (n := n)
    (fun m old hm h => by
      obtain ⟨j, new, hconn, hb⟩ := h
      obtain ⟨old', new', hb', hconn', hfewer⟩ :=
        (step_move (x.step m)).behind (hs m).valid hb (hconn ▸ (hnever (m + 1) (by omega)).1)
      exact ⟨old', ⟨j, new', hconn'.trans hconn, hb'⟩, hfewer⟩) ⟨i, [], rfl, hstart⟩
  cases old with
  | cons first old =>
      have hhead : ∀ m, max N N₀ ≤ m → ∃ rest, (x.state m).world.queue = first :: rest := by
        intro m hm
        obtain ⟨⟨j, new, -, hb⟩, -⟩ := hrests m (by omega)
        exact ⟨old ++ new, hb.queue⟩
      exact head_served x hs (fun m hm => hidle m (by omega)) htakes hhead
        fun m hm => (hrests m (by omega)).2 (List.cons_ne_nil _ _)
  | nil =>
      obtain ⟨m, hm, hdrained⟩ := output_drained x (fun m => (hs m).valid)
        (htakes ((x.state n).world.clients i).conn) N
      obtain ⟨⟨j, new, hconn, hb⟩, -⟩ := hrests m hm
      obtain ⟨answered, pending, hledger, hprefix⟩ := hb.answered (hs m).valid.world
      have hempty : ((x.state m).world.clients j).output.data = [] := by
        by_contra houtput
        exact hdrained ⟨j, hb.live, hconn, houtput⟩
      rw [hempty] at hledger
      refine (hnever m (by omega)).2 ?_
      rw [← hconn, hledger.sent_of_drained]
      obtain ⟨rest, rfl⟩ := hprefix
      rw [List.flatMap_append]
      exact List.prefix_append _ _

/-- **Every request is answered.** In every execution in which signals, interrupted calls and connections
that cannot be configured come to an end, and in which `poll` and `send` do for every client with output
what `Obliging` says, whatever was read of a connection by some time is answered in full at some later time,
or the connection is closed. -/
theorem requests_answered (hinit : (server host).init (x.state 0))
    (hidle : ∃ N, ∀ m, N ≤ m → (x.event m).idle = false)
    (hobliging : ∀ c, Obliging x .output c fun s => s.world.Owes c) {n k : Nat}
    {requests : List Request} (hi : (x.state n).world.Live i)
    (haccounts : Accounts host (x.state n).world i requests k) :
    ∃ m, n ≤ m ∧ (¬ (x.state m).world.Connected ((x.state n).world.clients i).conn ∨
      requests.flatMap (respond host) <+:
        (x.state m).world.sent ((x.state n).world.clients i).conn) := by
  obtain ⟨N, hidle⟩ := hidle
  exact answered_of_takes x hinit hidle (fun c => takes_output x hinit hidle (hobliging c)) hi haccounts

/-- A connection is accepted. -/
def Event.arrives : Event → Bool
  | .accept (.accepted _) _ _ => true
  | _ => false

/-- A server that is woken up by connections that are gone when it calls `accept`. -/
inductive Spurious (w : World) : Pc → Prop
  | loopTest : Spurious w .loopTest
  | processQueue : Spurious w .processQueue
  | buildPollList : Spurious w .buildPollList
  | polling : Spurious w (.polling (listenerEvents w.clients) (buildPollList w.clients) false)
  | serving {todo : List PollEntry} (h : ∀ entry ∈ todo, entry.revents = .none) :
      Spurious w (.serving .readable todo)
  | visiting {entry : PollEntry} {todo : List PollEntry} (hentry : entry.revents = .none)
      (h : ∀ entry ∈ todo, entry.revents = .none) :
      Spurious w (.visiting .check entry .readable todo)
  | accepting : Spurious w .accepting

theorem snd_of_mem_zip_none {entries : List PollEntry} {p : PollEntry × Revents}
    (h : p ∈ entries.zip (entries.map fun _ => .none)) : p.2 = .none := by
  obtain ⟨_, -, hp⟩ := List.mem_map.mp (List.of_mem_zip (a := p.1) (b := p.2) h).2
  exact hp.symm

theorem pollAnswers_spurious {entries : List PollEntry} :
    pollAnswers .readable (entries.map fun _ => .none) ⟨true, false⟩ entries = true := by
  have hnone : ∀ events, Revents.none.answers events = true := by
    rintro ⟨_ | _, _ | _⟩ <;> rfl
  have hall : (entries.zip (entries.map fun _ => .none)).all
      (fun p => Revents.answers p.2 p.1.events) = true := by
    rw [List.all_eq_true]
    intro p hp
    rw [snd_of_mem_zip_none hp, hnone]
  simp only [pollAnswers, List.length_map, decide_true, hall, List.any_cons]
  rfl

/-- With nothing to do for its clients it goes round for ever. -/
theorem Spurious.next {pc : Pc} (h : Spurious w pc) (hqueue : w.queue = [])
    (hfree : hasFreeClientSlot w.clients = true) :
    ∃ e pc', e.idle = false ∧ e.arrives = false ∧
      step host ⟨pc, false, w⟩ e = some ⟨pc', false, w⟩ ∧ Spurious w pc' := by
  cases h with
  | loopTest => exact ⟨.tick, _, rfl, rfl, rfl, .processQueue⟩
  | processQueue =>
      have hnone : Uds.processQueue host w .fair true = (false, w) := by
        simp only [Uds.processQueue, hqueue, Queue.peek, List.head?_nil]
      exact ⟨.process .fair true, _, rfl, rfl, by simp only [step, hnone]; rfl, .buildPollList⟩
  | buildPollList => exact ⟨.tick, _, rfl, rfl, rfl, .polling⟩
  | polling =>
      have hserving : Spurious w (.serving .readable (fillRevents (Uds.buildPollList w.clients)
          ((Uds.buildPollList w.clients).map fun _ => .none))) := by
        refine .serving fun entry hentry => ?_
        obtain ⟨p, hp, rfl⟩ := List.mem_map.mp hentry
        exact snd_of_mem_zip_none hp
      refine ⟨.poll (.ready .readable ((Uds.buildPollList w.clients).map fun _ => .none)), _, rfl,
        rfl, ?_, hserving⟩
      simp only [step, pollReturns, listenerEvents, hfree, pollAnswers_spurious, if_true]
      rfl
  | @serving todo h =>
      cases todo with
      | nil => exact ⟨.tick, _, rfl, rfl, rfl, .accepting⟩
      | cons entry todo =>
          have hentry := h entry List.mem_cons_self
          have htodo := fun entry' hmem => h entry' (List.mem_cons_of_mem _ hmem)
          by_cases hfd : (w.clients entry.slot).fd = -1
          · exact ⟨.tick, _, rfl, rfl, by simp only [step, tick, hfd, if_true], .serving htodo⟩
          · refine ⟨.tick, _, rfl, rfl, ?_, .visiting hentry htodo⟩
            simp only [step, tick, hfd, if_false, visit, afterRead, hentry]
            rfl
  | @visiting entry todo hentry h =>
      refine ⟨.close true, _, rfl, rfl, ?_, .serving h⟩
      simp only [step, hentry]
      rfl
  | accepting =>
      refine ⟨.accept .wouldBlock true true, _, rfl, rfl, ?_, .loopTest⟩
      simp only [step, acceptClients, hfree, if_true, Option.map_some]
      rfl

/-- The only client sends a request, the response to it is sent, and the server wakes up for nothing. -/
def answeredRun : List Event :=
  connectRound ++ requestRound ++
  [.process .fair true, .tick, .poll (.ready .none [.writable]), .tick, .send (.sent 3) true,
    .send .wouldBlock true, .close true, .tick] ++ idleRound ++
  [.poll (.ready .readable [.none]), .tick, .close true, .tick]

/-- The state of the server after the first steps of this run. -/
def answeredAfter (k : Nat) : Option State :=
  StepSystem.exec (step plainHost) (.start {3} false) (answeredRun.take k)

/-- An execution that begins with this run and in which nothing happens afterwards. -/
theorem exists_answeredRun : ∃ x : (server plainHost).Execution,
    (server plainHost).init (x.state 0) ∧
    (∀ k t, k ≤ answeredRun.length → answeredAfter k = some t → x.state k = t) ∧
    ∀ m, answeredRun.length ≤ m → (x.event m).idle = false ∧ (x.state m).world.Connected 0 ∧
      ∀ c, ¬ (x.state m).world.Owes c := by
  have hend : (StepSystem.exec (step plainHost) (.start {3} false) answeredRun).any (fun s =>
      s.pc.isAccepting && !s.stopRequested && s.world.queue.isEmpty &&
        hasFreeClientSlot s.world.clients && s.world.Connected 0 &&
        (List.finRange maxClients).all fun i => (s.world.clients i).output.data.isEmpty) = true := by
    decide +kernel
  rw [Option.any_eq_true] at hend
  obtain ⟨⟨pc, stop, w⟩, hexec, hp⟩ := hend
  simp only [Bool.and_eq_true, Bool.not_eq_true', isAccepting_iff, List.isEmpty_iff,
    decide_eq_true_eq, List.all_eq_true, List.mem_finRange, true_implies] at hp
  obtain ⟨⟨⟨⟨⟨rfl, rfl⟩, hqueue⟩, hfree⟩, hconnected⟩, houtput⟩ := hp
  have hspins : ∀ s : State, (∃ pc, s = ⟨pc, false, w⟩ ∧ Spurious w pc) → ∃ e s',
      e.idle = false ∧ step plainHost s e = some s' ∧ ∃ pc, s' = ⟨pc, false, w⟩ ∧ Spurious w pc := by
    rintro _ ⟨pc, rfl, h⟩
    obtain ⟨e, pc', he, -, hstep, h'⟩ := h.next hqueue hfree
    exact ⟨e, _, he, hstep, pc', rfl, h'⟩
  obtain ⟨x, hrun, htail⟩ : ∃ x : (server plainHost).Execution, _ ∧ _ :=
    StepSystem.exists_execution_after hspins hexec ⟨_, rfl, .accepting⟩
  refine ⟨x, ?_, hrun, fun m hm => ?_⟩
  · rw [hrun 0 _ (Nat.zero_le _) rfl]
    exact ⟨{3}, false, rfl⟩
  · obtain ⟨⟨pc, hstate, -⟩, hidle⟩ := htail m hm
    rw [hstate]
    exact ⟨hidle, hconnected, fun c ⟨i, _, _, hne⟩ => hne (houtput i)⟩

/-- A `PWD` request that has just been read, in a run that never ends and in which its client stays
connected: it is sent the directory. -/
theorem requests_answered_run : ∃ (x : (server plainHost).Execution) (n m : Nat), n ≤ m ∧
    (x.state n).world.received 0 = requestCodec.encodeAll [pwdRequest] ∧
    (x.state n).world.sent 0 = [] ∧ (x.state m).world.Connected 0 ∧
    [pwdRequest].flatMap (respond plainHost) <+: (x.state m).world.sent 0 := by
  obtain ⟨x, hinit, hrun, htail⟩ := exists_answeredRun
  have hread : (answeredAfter 13).any (fun s =>
      s.world.Live slot0 && ((s.world.clients slot0).conn == 0) && (s.world.sent 0).isEmpty &&
        (s.world.clients slot0).input.data.isEmpty && (s.world.received 0 == pwdFrame)) = true := by
    decide +kernel
  have hstays : ((List.range (answeredRun.length + 1)).all fun k =>
      decide (k < 13) || (answeredAfter k).any fun s => s.world.Connected 0) = true := by
    decide +kernel
  -- the client stays connected, in the run and behind it
  have hconnected : ∀ m, 13 ≤ m → (x.state m).world.Connected 0 := by
    intro m hm
    by_cases hlast : answeredRun.length ≤ m
    · exact (htail m hlast).2.1
    · have hone := List.all_eq_true.mp hstays m (List.mem_range.mpr (by omega))
      rw [Bool.or_eq_true, decide_eq_true_eq, Option.any_eq_true] at hone
      obtain ⟨t, ht, hc⟩ := hone.resolve_left (by omega)
      rw [hrun m t (by omega) ht]
      exact of_decide_eq_true hc
  -- nothing is owed to any client at the end
  have hobliging : ∀ c, Obliging x .output c fun s => s.world.Owes c := by
    intro c
    have hnever : ∀ n, ¬ ∀ m, n ≤ m → (x.state m).world.Owes c := fun n howes =>
      (htail _ (le_max_right n answeredRun.length)).2.2 c (howes _ (le_max_left _ _))
    exact ⟨fun n h => absurd h (hnever n), fun n h => absurd h (hnever n)⟩
  rw [Option.any_eq_true] at hread
  obtain ⟨t, hexec, ht⟩ := hread
  simp only [Bool.and_eq_true, decide_eq_true_eq, beq_iff_eq, List.isEmpty_iff] at ht
  obtain ⟨⟨⟨⟨hlive, hconn⟩, hsent⟩, hinput⟩, hreceived⟩ := ht
  have hstate : x.state 13 = t := hrun 13 t (by decide) hexec
  obtain ⟨requests, k, haccounts⟩ := (connection_ledger (hstate ▸ x.reachable hinit 13)).2 slot0 hlive
  obtain rfl : requests = [pwdRequest] := by
    apply requestCodec.encodeAll_injective
    have hsplit := haccounts.received
    rw [hinput, List.append_nil, hconn, hreceived] at hsplit
    exact hsplit.symm
  obtain ⟨m, hm, hanswer⟩ := requests_answered x hinit ⟨_, fun m hm => (htail m hm).1⟩ hobliging
    (n := 13) (by rw [hstate]; exact hlive) (by rw [hstate]; exact haccounts)
  rw [hstate, hconn] at hanswer
  refine ⟨x, 13, m, hm, by rw [hstate]; exact hreceived, by rw [hstate, hsent], hconnected m hm, ?_⟩
  exact hanswer.resolve_left fun hgone => hgone (hconnected m hm)

end WireCommand.Uds
