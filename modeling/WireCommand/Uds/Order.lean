import Mathlib.Data.Fintype.Basic
import WireCommand.Foundation.Fifo
import WireCommand.Foundation.Simulation
import WireCommand.Uds.Polling

/-!
# The order of the queue

The requests of all clients go through one queue. `connection_ledger` says that each client's requests
keep their order; this is about the order of requests of different clients. The server runs them in the
order in which it read them, whoever sent them, and passes over those whose clients are gone, and no
others.
-/

namespace WireCommand.Uds

open Foundation Foundation.Framing Protocol

variable {host : Host} {w w' : World} {i : Slot} {s s' : State} {e : Event}

/-- What happens to a request: it joins the queue, and it is run. -/
inductive QueueAct where
  | joins (entry : QueuedRequest)
  | runs (entry : QueuedRequest)
  deriving DecidableEq

/-- What a step does to the requests. -/
def queueActs (s : State) (e : Event) (_s' : State) : List QueueAct :=
  match e, s.pc with
  | .read outcome env _, .visiting .read entry _ _ =>
      match readClient s.world entry.slot outcome env with
      | some (_, w) => (w.queue.drop s.world.queue.length).map .joins
      | none => []
  | .process _ _, .processQueue =>
      match s.world.queue with
      | [] => []
      | first :: _ =>
          match findClient s.world.clients first.clientFd with
          | some i => if (s.world.clients i).output.length = 0 then [.runs first] else []
          | none => []
  | _, _ => []

/-- The requests that have joined the queue, in order. -/
def joined (as : List QueueAct) : List QueuedRequest :=
  as.filterMap fun
    | .joins entry => some entry
    | .runs _ => none

/-- The requests that have been run, in order. -/
def ran (as : List QueueAct) : List QueuedRequest :=
  as.filterMap fun
    | .joins _ => none
    | .runs entry => some entry

@[simp] theorem joined_append (as bs : List QueueAct) : joined (as ++ bs) = joined as ++ joined bs :=
  List.filterMap_append

@[simp] theorem ran_append (as bs : List QueueAct) : ran (as ++ bs) = ran as ++ ran bs :=
  List.filterMap_append

@[simp] theorem joined_map_joins (entries : List QueuedRequest) :
    joined (entries.map .joins) = entries := by
  rw [joined, List.filterMap_map]
  exact List.filterMap_some

@[simp] theorem ran_map_joins (entries : List QueuedRequest) : ran (entries.map .joins) = [] := by
  rw [ran, List.filterMap_map]
  exact List.filterMap_eq_nil_iff.mpr fun _ _ => rfl

/-- The queue is the line of its history. -/
structure Ordered (w : World) (as : List QueueAct) : Prop where
  line : InLine (fun entry => decide (w.Connected entry.origin)) (joined as) (ran as) w.queue
  issued : ∀ entry ∈ joined as, entry.origin < w.nextConn

/-! ## What the functions do to the line -/

/-- The client is served, and the queue stays as it is. -/
theorem Ordered.touch {as : List QueueAct} (h : Ordered w as) (ht : Touches i w w')
    (hqueue : w'.queue = w.queue) : Ordered w' as where
  line := by
    simp only [ht.connected, hqueue]
    exact h.line
  issued := by
    rw [ht.nextConn]
    exact h.issued

/-- Requests of the client join the queue. -/
theorem Ordered.join {as : List QueueAct} {new : List QueuedRequest} (h : Ordered w as)
    (ht : Touches i w w') (hqueue : w'.queue = w.queue ++ new)
    (hnew : ∀ entry ∈ new, entry.origin < w.nextConn) : Ordered w' (as ++ new.map .joins) where
  line := by
    simp only [ht.connected, hqueue, joined_append, joined_map_joins, ran_append, ran_map_joins,
      List.append_nil]
    exact h.line.join new
  issued := by
    rw [ht.nextConn, joined_append, joined_map_joins]
    intro entry hentry
    rcases List.mem_append.mp hentry with hold | hjoins
    · exact h.issued entry hold
    · exact hnew entry hjoins

/-- The first request is run. -/
theorem Ordered.run {as : List QueueAct} {first : QueuedRequest} {rest : RequestQueue}
    (h : Ordered w as) (ht : Touches i w w') (hqueue : w.queue = first :: rest)
    (hqueue' : w'.queue = rest) : Ordered w' (as ++ [.runs first]) where
  line := by
    have hline := h.line
    rw [hqueue] at hline
    simp only [ht.connected, hqueue', joined_append, ran_append]
    simpa [joined, ran] using hline.serve
  issued := by
    rw [ht.nextConn]
    simpa [joined] using h.issued

/-- A client is removed, with its requests. -/
theorem Ordered.remove {as : List QueueAct} (h : Ordered w as) (hi : w.Live i)
    (hconn : w.Separates Client.conn)
    (horigin : ∀ entry ∈ w.queue, entry.clientFd = (w.clients i).fd →
      entry.origin = (w.clients i).conn) (released : Bool) :
    Ordered (removeClient w i released) as where
  line := by
    have hpresent : ∀ entry : QueuedRequest, (removeClient w i released).Connected entry.origin →
        ∃ j, j ≠ i ∧ w.Live j ∧ (w.clients j).conn = entry.origin := by
      rintro entry ⟨j, hj, horigin⟩
      obtain ⟨hj, hne⟩ := (removeClient_live released).mp hj
      rw [removeClient_clients released hne] at horigin
      exact ⟨j, hne, hj, horigin⟩
    rw [show (removeClient w i released).queue = Queue.discardClient w.queue (w.clients i).fd by
      rw [removeClient_eq hi]]
    refine h.line.leave ?_ ?_
    · intro entry hentry
      obtain ⟨j, -, hj, hjconn⟩ := hpresent entry (of_decide_eq_true hentry)
      exact decide_eq_true ⟨j, hj, hjconn⟩
    · intro entry hmem hentry
      obtain ⟨j, hne, hj, hjconn⟩ := hpresent entry (of_decide_eq_true hentry)
      refine decide_eq_true fun hfd => hne (hconn j i hj hi ?_)
      rw [hjconn, horigin entry hmem hfd]
  issued := by
    rw [removeClient_eq hi]
    exact h.issued

/-- The requests with a client's descriptor are of its connection. -/
theorem World.Valid.origin_eq (hv : w.Valid host) (hi : w.Live i) {entry : QueuedRequest}
    (hentry : entry ∈ w.queue) (hfd : entry.clientFd = (w.clients i).fd) :
    entry.origin = (w.clients i).conn := by
  obtain ⟨j, hj, hjfd, hjconn⟩ := hv.origin hentry
  rw [← hjconn, hv.fd_inj j i hj hi (hjfd.trans hfd)]

/-- A client is removed after it was served. -/
theorem Ordered.remove_touched {as : List QueueAct} (h : Ordered w' as) (hv : w.Valid host)
    (hi : w.Live i) (ht : Touches i w w')
    (hnew : ∀ entry ∈ w'.queue, entry ∈ w.queue ∨ entry.origin = (w.clients i).conn)
    (released : Bool) : Ordered (removeClient w' i released) as := by
  refine h.remove (ht.live.mpr hi) ?_ ?_ released
  · exact hv.conn_inj.mono fun j hj => ⟨ht.live.mp hj, ht.conn_eq j⟩
  · intro entry hentry hfd
    rw [ht.conn]
    rcases hnew entry hentry with hold | horigin
    · exact hv.origin_eq hi hold (hfd.trans ht.fd)
    · exact horigin

/-- What one iteration of `wc_uds_read_client` adds to the queue: the requests whose frames are
complete with what it has read. -/
theorem readClient_joins {outcome : ReadOutcome} {env : ReadEnv} {iteration : Iteration}
    (hv : w.Valid host) (hi : w.Live i) (h : readClient w i outcome env = some (iteration, w')) :
    ∃ bytes parsed rest,
      w'.queue = w.queue ++ parsed.map (queued (w.clients i).fd (w.clients i).conn) ∧
      w'.received (w.clients i).conn = w.received (w.clients i).conn ++ bytes ∧
      (w.clients i).input.data ++ bytes = requestCodec.encodeAll parsed ++ rest ∧
      (iteration ≠ .failed → (w'.clients i).input.data = rest) := by
  cases readClient_read hv hi h with
  | eof | interrupted | wouldBlock | failed => exact ⟨[], [], _, by simp, by simp, rfl, by simp⟩
  | @lost bytes _ => exact ⟨bytes, [], _, by simp [World.noteReceived], by simp, rfl, by simp⟩
  | @parsed bytes _ input parsed _ hdata _ hsplit _ _ _ =>
      refine ⟨bytes, parsed, input.data, rfl, ?_, hdata.symm.trans hsplit, fun _ => ?_⟩
      · exact noteReceived_self w _ bytes
      · simp [World.afterRead, World.setClient]

theorem origin_of_mem_queued {fd : Int} {c : Nat} {rs : List Request} {entry : QueuedRequest}
    (h : entry ∈ rs.map (queued fd c)) : entry.origin = c := by
  obtain ⟨r, -, rfl⟩ := List.mem_map.mp h
  rfl

theorem queueActs_read {entry : PollEntry} {listener : Revents} {todo : List PollEntry}
    {stop released : Bool} {outcome : ReadOutcome} {env : ReadEnv} {iteration : Iteration}
    {new : List QueuedRequest} (hread : readClient w entry.slot outcome env = some (iteration, w'))
    (hqueue : w'.queue = w.queue ++ new) :
    queueActs ⟨.visiting .read entry listener todo, stop, w⟩ (.read outcome env released) s' =
      new.map .joins := by
  simp only [queueActs, hread, hqueue, List.drop_left]

/-- The visit of a client, with the removal that may end it. -/
theorem continueVisit_ordered {entry : PollEntry} {listener : Revents} {todo : List PollEntry}
    {next : Pc} {released : Bool} {iteration : Iteration} {as : List QueueAct}
    (h : Ordered w' as) (hv : s.world.Valid host) (hi : s.world.Live entry.slot)
    (ht : Touches entry.slot s.world w')
    (hnew : ∀ other ∈ w'.queue,
      other ∈ s.world.queue ∨ other.origin = (s.world.clients entry.slot).conn) :
    Ordered (continueVisit s entry listener todo next released (iteration, w')).world as := by
  cases iteration with
  | again | done => exact h
  | failed => exact h.remove_touched hv hi ht hnew released

/-! ## Every step -/

/-- A connection arrives, which no request is of. -/
theorem Ordered.arrive {as : List QueueAct} (h : Ordered w as) {fd : Int}
    {nonblockingOk released : Bool} (harrival : Arrival w fd nonblockingOk released w') :
    Ordered w' as := by
  cases harrival with
  | rejected => exact ⟨h.line, fun entry hentry => (h.issued entry hentry).trans (Nat.lt_succ_self _)⟩
  | added i hi hfd _ =>
      refine ⟨h.line.congr fun entry hentry => ?_,
        fun entry hentry => (h.issued entry hentry).trans (Nat.lt_succ_self _)⟩
      have hissued := h.issued entry hentry
      refine decide_eq_decide.mpr ⟨?_, ?_⟩
      · rintro ⟨j, hj, hconn⟩
        have hji : j ≠ i := by
          rintro rfl
          rw [setClient_self] at hconn
          exact absurd hconn hissued.ne'
        rw [World.Live, setClient_of_ne _ _ hji] at hj
        rw [setClient_of_ne _ _ hji] at hconn
        exact ⟨j, hj, hconn⟩
      · rintro ⟨j, hj, hconn⟩
        have hji : j ≠ i := by
          rintro rfl
          exact hj hi
        exact ⟨j, by rwa [World.Live, setClient_of_ne _ _ hji], by rwa [setClient_of_ne _ _ hji]⟩

/-- One iteration of `wc_uds_process_queue`. -/
theorem Processed.ordered {env : Response.Env} {released again stop : Bool} {pc : Pc}
    {as : List QueueAct} (h : Processed host w env released (again, w')) (hv : w.Valid host)
    (ho : Ordered w as) :
    Ordered w' (as ++ queueActs ⟨.processQueue, stop, w⟩ (.process env released) ⟨pc, stop, w'⟩) := by
  -- the client that is found is the one there is
  have hacts : ∀ {first rest i}, w.queue = first :: rest → w.Live i →
      (w.clients i).fd = first.clientFd →
      queueActs ⟨.processQueue, stop, w⟩ (.process env released) ⟨pc, stop, w'⟩ =
        if (w.clients i).output.length = 0 then [.runs first] else [] := by
    intro first rest i hqueue hi hfd
    obtain ⟨j, hfind, hj, hjfd⟩ := hv.findClient_head hqueue
    obtain rfl : j = i := hv.fd_inj j i hj hi (hjfd.trans hfd.symm)
    simp only [queueActs, hqueue, hfind]
  cases h with
  | waits hwaits =>
      cases hqueue : w.queue with
      | nil => simpa [queueActs, hqueue] using ho
      | cons first rest =>
          obtain ⟨i, hi, hfd, hwaiting⟩ := hwaits first rest hqueue
          rw [hacts hqueue hi hfd, if_neg (by simpa [Buffer.length] using hwaiting)]
          simpa using ho
  | @answered first rest i output hqueue hi hfd hempty _ =>
      rw [hacts hqueue hi hfd, if_pos (by simp [Buffer.length, hempty])]
      exact ho.run (touches_afterDequeue hv hqueue hfd output) hqueue rfl
  | @failed first rest i output errno hqueue hi hfd hempty _ =>
      have ht := touches_afterDequeue hv hqueue hfd output
      rw [hacts hqueue hi hfd, if_pos (by simp [Buffer.length, hempty])]
      refine (ho.run ht hqueue rfl).remove_touched hv hi ht (fun entry hentry => .inl ?_) released
      rw [hqueue]
      exact List.mem_cons_of_mem _ hentry

theorem Move.ordered {as : List QueueAct} (h : Move host s e s') (hs : s.Valid host)
    (ho : Ordered s.world as) : Ordered s'.world (as ++ queueActs s e s') := by
  have hw := hs.world
  have hpc := hs.pc
  cases h with
  | @process stop w env released again w' hprocess =>
      have hspec := processQueue_spec hw env released
      rw [hprocess] at hspec
      exact hspec.ordered hw ho
  | @read entry listener todo stop w outcome env released result hread =>
      obtain ⟨iteration, w'⟩ := result
      have ht := (readClient_spec hw hpc.1.1 hread).1
      obtain ⟨bytes, parsed, rest, hqueue, -⟩ := readClient_joins hw hpc.1.1 hread
      rw [queueActs_read hread hqueue]
      refine continueVisit_ordered (ho.join ht hqueue fun other hother => ?_) hw hpc.1.1 ht ?_
      · rw [origin_of_mem_queued hother]
        exact (hw.client _ hpc.1.1).conn_lt
      · intro other hother
        rw [hqueue] at hother
        exact (List.mem_append.mp hother).imp_right origin_of_mem_queued
  | @send entry listener todo stop w outcome released result hsend =>
      obtain ⟨iteration, w'⟩ := result
      have ht := (writeClient_spec hw hpc.1.1 hsend).1
      have hqueue : w'.queue = w.queue := by cases writeClient_wrote hsend <;> rfl
      simp only [queueActs, List.append_nil]
      exact continueVisit_ordered (ho.touch ht hqueue) hw hpc.1.1 ht
        fun other hother => .inl (hqueue ▸ hother)
  | @check entry listener todo stop w released =>
      simp only [queueActs, List.append_nil]
      split
      · exact ho.remove_touched hw hpc.1.1 (.refl hw) (fun _ h => .inl h) released
      · exact ho
  | @accept stop w outcome nonblockingOk released again w' haccept =>
      simp only [queueActs, List.append_nil]
      rcases acceptClients_arrival haccept with rfl | ⟨fd, -, harrival⟩
      · exact ho
      · exact ho.arrive harrival
  | @close result next stop w released hnext =>
      simp only [queueActs, List.append_nil]
      by_cases hlive : w.Live ⟨next, hnext⟩
      · exact ho.remove_touched hw hlive (.refl hw) (fun _ h => .inl h) released
      · rw [removeClient_of_free hlive]
        exact ho
  | @shutdown result result' stop w closed unlinked =>
      -- the clients are gone, and with them the requests
      have hempty : w.queue = [] := hs.attributed.closed result rfl
      simp only [queueActs, List.append_nil]
      refine ⟨?_, ho.issued⟩
      have hline := ho.line
      rw [hempty] at hline
      exact hline
  | _ => simpa [queueActs] using ho

/-! ## What joins the queue -/

/-- The requests of a connection. -/
def ofConn (entries : List QueuedRequest) (c : Nat) : List QueuedRequest :=
  entries.filter fun entry => entry.origin = c

theorem ofConn_append (entries entries' : List QueuedRequest) (c : Nat) :
    ofConn (entries ++ entries') c = ofConn entries c ++ ofConn entries' c := List.filter_append ..

theorem ofConn_queued_self (fd : Int) (c : Nat) (rs : List Request) :
    ofConn (rs.map (queued fd c)) c = rs.map (queued fd c) :=
  List.filter_eq_self.mpr fun _ h => decide_eq_true (origin_of_mem_queued h)

theorem ofConn_queued_of_ne {c c' : Nat} (hne : c ≠ c') (fd : Int) (rs : List Request) :
    ofConn (rs.map (queued fd c')) c = [] :=
  List.filter_eq_nil_iff.mpr fun _ h => by simpa [origin_of_mem_queued h] using hne.symm

/-- The requests of the connection `c` that have joined the queue are those whose frames were read from
it, in order, and what is left over is in the input buffer of its client. -/
def FramesOf (w : World) (as : List QueueAct) (c : Nat) : Prop :=
  ∃ fd rs rest, ofConn (joined as) c = rs.map (queued fd c) ∧
    w.received c = requestCodec.encodeAll rs ++ rest ∧
    ∀ i, w.Live i → (w.clients i).conn = c →
      (w.clients i).fd = fd ∧ (w.clients i).input.data = rest

/-- Nothing is read from the connection, and its client is as before if it is still there. -/
theorem FramesOf.frame {as as' : List QueueAct} {c : Nat} (h : FramesOf w as c)
    (hjoined : ofConn (joined as') c = ofConn (joined as) c)
    (hreceived : w'.received c = w.received c)
    (hclients : ∀ i, w'.Live i → (w'.clients i).conn = c → w.Live i ∧
      (w'.clients i).conn = (w.clients i).conn ∧ (w'.clients i).fd = (w.clients i).fd ∧
      (w'.clients i).input = (w.clients i).input) : FramesOf w' as' c := by
  obtain ⟨fd, rs, rest, hrs, hsplit, hclient⟩ := h
  refine ⟨fd, rs, rest, hjoined.trans hrs, hreceived.trans hsplit, fun i hi hconn => ?_⟩
  obtain ⟨hi, hsame, hfd, hinput⟩ := hclients i hi hconn
  rw [hfd, hinput]
  exact hclient i hi (hsame ▸ hconn)

/-- The same when a client that was served is removed. -/
theorem FramesOf.remove {as : List QueueAct} {c : Nat} (h : FramesOf w as c) (released : Bool) :
    FramesOf (removeClient w i released) as c := by
  refine h.frame rfl (by rw [removeClient_received]) fun j hj _ => ?_
  obtain ⟨hj, hne⟩ := (removeClient_live released).mp hj
  rw [removeClient_clients released hne]
  exact ⟨hj, rfl, rfl, rfl⟩

/-- Something is done for a client that is not a read. -/
theorem FramesOf.touch {as as' : List QueueAct} {c : Nat} (h : FramesOf w as c)
    (ht : Touches i w w') (hjoined : joined as' = joined as) (hreceived : w'.received = w.received)
    (hinput : ∀ j, (w'.clients j).input = (w.clients j).input) : FramesOf w' as' c :=
  h.frame (by rw [hjoined]) (by rw [hreceived]) fun j hj _ =>
    ⟨ht.live.mp hj, ht.conn_eq j, ht.fd_eq j, hinput j⟩

/-- One iteration of `wc_uds_process_queue` reads nothing. -/
theorem Processed.framesOf {env : Response.Env} {released again : Bool} {as as' : List QueueAct}
    {c : Nat} (hspec : Processed host w env released (again, w')) (hv : w.Valid host)
    (hjoined : joined as' = joined as) (h : FramesOf w as c) : FramesOf w' as' c := by
  cases hspec with
  | waits _ => exact h.touch (i := ⟨0, by decide⟩) (.refl hv) hjoined rfl fun _ => rfl
  | answered hqueue _ hfd _ _ =>
      exact h.touch (touches_afterDequeue hv hqueue hfd _) hjoined rfl fun _ => afterDequeue_input _ _
  | failed hqueue _ hfd _ _ =>
      exact (h.touch (touches_afterDequeue hv hqueue hfd _) hjoined rfl
        fun _ => afterDequeue_input _ _).remove released

/-- **A read adds the requests whose frames it completes.** -/
theorem FramesOf.read {entry : PollEntry} {listener : Revents} {todo : List PollEntry} {next : Pc}
    {stop released : Bool} {iteration : Iteration} {as : List QueueAct} {c : Nat}
    {bytes rest : Bytes} {parsed : List Request} (h : FramesOf w as c) (hi : w.Live entry.slot)
    (ht : Touches entry.slot w w')
    (hreceived : w'.received (w.clients entry.slot).conn =
      w.received (w.clients entry.slot).conn ++ bytes)
    (hsplit : (w.clients entry.slot).input.data ++ bytes = requestCodec.encodeAll parsed ++ rest)
    (hinput : iteration ≠ .failed → (w'.clients entry.slot).input.data = rest)
    (hv : w.Valid host) :
    FramesOf (continueVisit ⟨.visiting .read entry listener todo, stop, w⟩ entry listener todo next
        released (iteration, w')).world
      (as ++ (parsed.map (queued (w.clients entry.slot).fd (w.clients entry.slot).conn)).map .joins)
      c := by
  by_cases hc : c = (w.clients entry.slot).conn
  · subst hc
    obtain ⟨fd, rs, rest', hrs, hold, hclient⟩ := h
    obtain ⟨rfl, rfl⟩ := hclient entry.slot hi rfl
    have hbytes : w'.received (w.clients entry.slot).conn =
        requestCodec.encodeAll (rs ++ parsed) ++ rest := by
      rw [hreceived, hold, List.append_assoc, hsplit, Codec.encodeAll_append, List.append_assoc]
    have hjoined : ofConn (joined (as ++ (parsed.map (queued (w.clients entry.slot).fd
        (w.clients entry.slot).conn)).map .joins)) (w.clients entry.slot).conn =
          (rs ++ parsed).map (queued (w.clients entry.slot).fd (w.clients entry.slot).conn) := by
      rw [joined_append, joined_map_joins, ofConn_append, hrs, ofConn_queued_self, List.map_append]
    -- only the client itself has this connection
    have hself : ∀ j, w'.Live j → (w'.clients j).conn = (w.clients entry.slot).conn →
        j = entry.slot := fun j hj hconn =>
      hv.conn_inj j entry.slot (ht.live.mp hj) hi ((ht.conn_eq j).symm.trans hconn)
    cases iteration with
    | again | done =>
        refine ⟨_, _, rest, hjoined, hbytes, fun j hj hconn => ?_⟩
        rw [hself j hj hconn]
        exact ⟨ht.fd, hinput (by decide)⟩
    | failed =>
        refine ⟨_, _, rest, hjoined, ?_, fun j hj hconn => ?_⟩
        · show (removeClient w' entry.slot released).received _ = _
          rw [removeClient_received, hbytes]
        · exact absurd ⟨j, hj, hconn⟩ (not_connected_removed hv hi ht released)
  · have hother : FramesOf w' (as ++ (parsed.map (queued (w.clients entry.slot).fd
        (w.clients entry.slot).conn)).map .joins) c := by
      refine h.frame ?_ (ht.received c hc) fun j hj hconn => ?_
      · rw [joined_append, joined_map_joins, ofConn_append, ofConn_queued_of_ne hc, List.append_nil]
      · have hne : j ≠ entry.slot := by
          rintro rfl
          exact hc (hconn.symm.trans ht.conn)
        exact ⟨ht.live.mp hj, by rw [ht.clients j hne], by rw [ht.clients j hne],
          by rw [ht.clients j hne]⟩
    cases iteration with
    | again | done => exact hother
    | failed => exact hother.remove released

/-- A connection arrives, from which nothing has been read. -/
theorem FramesOf.arrive {as : List QueueAct} {c : Nat} {fd : Int} {nonblockingOk released : Bool}
    (h : FramesOf w as c) (hv : w.Valid host) (ho : Ordered w as)
    (harrival : Arrival w fd nonblockingOk released w') : FramesOf w' as c := by
  cases harrival with
  | rejected => exact h
  | added i hi hfd _ =>
      by_cases hc : c = w.nextConn
      · subst hc
        have hnone : ofConn (joined as) w.nextConn = [] :=
          List.filter_eq_nil_iff.mpr fun entry hentry => by
            simpa using (ho.issued entry hentry).ne
        refine ⟨fd, [], [], hnone, (hv.fresh _ (Nat.le_refl _)).1, fun j hj hconn => ?_⟩
        by_cases hji : j = i
        · subst hji
          rw [setClient_self]
          exact ⟨rfl, rfl⟩
        · rw [World.Live, setClient_of_ne _ _ hji] at hj
          rw [setClient_of_ne _ _ hji] at hconn
          exact absurd hconn (hv.client j hj).conn_lt.ne
      · refine h.frame rfl rfl fun j hj hconn => ?_
        have hji : j ≠ i := by
          rintro rfl
          rw [setClient_self] at hconn
          exact hc hconn.symm
        rw [World.Live, setClient_of_ne _ _ hji] at hj
        rw [setClient_of_ne _ _ hji]
        exact ⟨hj, rfl, rfl, rfl⟩

theorem Move.framesOf {as : List QueueAct} {c : Nat} (h : Move host s e s') (hs : s.Valid host)
    (ho : Ordered s.world as) (hf : FramesOf s.world as c) :
    FramesOf s'.world (as ++ queueActs s e s') c := by
  have hw := hs.world
  have hpc := hs.pc
  cases h with
  | @process stop w env released again w' hprocess =>
      have hspec := processQueue_spec hw env released
      rw [hprocess] at hspec
      refine hspec.framesOf hw ?_ hf
      -- what is run does not join
      simp only [queueActs]
      split
      · simp
      · split
        · split <;> simp [joined]
        · simp
  | @read entry listener todo stop w outcome env released result hread =>
      obtain ⟨iteration, w'⟩ := result
      obtain ⟨bytes, parsed, rest, hqueue, hreceived, hsplit, hinput⟩ :=
        readClient_joins hw hpc.1.1 hread
      rw [queueActs_read hread hqueue]
      exact hf.read hpc.1.1 (readClient_spec hw hpc.1.1 hread).1 hreceived hsplit hinput hw
  | @send entry listener todo stop w outcome released result hsend =>
      obtain ⟨iteration, w'⟩ := result
      have ht := (writeClient_spec hw hpc.1.1 hsend).1
      have hsame : w'.received = w.received ∧ ∀ j, (w'.clients j).input = (w.clients j).input := by
        cases writeClient_wrote hsend with
        | sent => exact ⟨rfl, fun _ => afterSend_input _ _⟩
        | _ => exact ⟨rfl, fun _ => rfl⟩
      simp only [queueActs, List.append_nil]
      have hserved := hf.touch ht rfl hsame.1 hsame.2
      cases iteration with
      | again | done => exact hserved
      | failed => exact hserved.remove released
  | @check entry listener todo stop w released =>
      simp only [queueActs, List.append_nil]
      split
      · exact hf.remove released
      · exact hf
  | @accept stop w outcome nonblockingOk released again w' haccept =>
      simp only [queueActs, List.append_nil]
      rcases acceptClients_arrival haccept with rfl | ⟨fd, -, harrival⟩
      · exact hf
      · exact hf.arrive hw ho harrival
  | @close result next stop w released hnext =>
      simp only [queueActs, List.append_nil]
      exact hf.remove released
  | shutdown =>
      simp only [queueActs, List.append_nil]
      exact hf.frame rfl rfl fun _ hj _ => ⟨hj, rfl, rfl, rfl⟩
  | _ => simpa [queueActs] using hf

/-! ## Every run -/

theorem ordered_start (openFds : Finset Int) : Ordered (.start openFds) [] where
  line := .empty _
  issued _ h := (List.not_mem_nil h).elim

/-- **The queue is served in order.** In any run, what joins the queue are the requests whose frames
were read, those of each connection in the order in which they were sent. The requests that were run and
those that wait are requests that were read, in the order in which they were read. Those that are missing
are of connections that are gone; so of the connections that are there, the requests that were run are
those that were read first, whichever clients sent them. -/
theorem served_in_order {openFds : Finset Int} {stopRequested : Bool} {as : List QueueAct}
    (h : (server host).Trace queueActs (.start openFds stopRequested) as s) :
    List.Sublist (ran as ++ s.world.queue) (joined as) ∧
      (ran as ++ s.world.queue).filter (fun entry => s.world.Connected entry.origin) =
        (joined as).filter (fun entry => s.world.Connected entry.origin) ∧
      (ran as).filter (fun entry => s.world.Connected entry.origin) <+:
        (joined as).filter (fun entry => s.world.Connected entry.origin) ∧
      ∀ c, FramesOf s.world as c := by
  have hordered : s.Valid host ∧ Ordered s.world as ∧ ∀ c, FramesOf s.world as c := by
    induction h with
    | nil =>
        refine ⟨valid_start openFds stopRequested, ordered_start openFds, fun c => ?_⟩
        exact ⟨0, [], [], rfl, rfl, fun i hi => absurd rfl hi⟩
    | snoc _ hstep ih =>
        obtain ⟨hvalid, ho, hf⟩ := ih
        have hmove := step_move hstep
        exact ⟨hmove.valid hvalid, hmove.ordered hvalid ho, fun c => hmove.framesOf hvalid ho (hf c)⟩
  have hline := hordered.2.1.line
  exact ⟨hline.sublist, hline.kept, hline.served_first, hordered.2.2⟩

/-- A run of the server with what happens to the requests. -/
theorem queueActs_traces (host : Host) (es : List Event) (test : List QueueAct → State → Bool)
    (h : (StepSystem.execTrace (step host) queueActs (.start {3} false) es).any
      (fun p => test p.1 p.2) = true) :
    ∃ as s, (server host).Trace queueActs (.start {3} false) as s ∧ test as s = true :=
  StepSystem.exists_trace h

/-- Three requests of two clients are read, and the first of them is run. -/
theorem served_in_order_run : ∃ as s,
    (server plainHost).Trace queueActs (.start {3} false) as s ∧ (joined as).length = 3 ∧
    (ran as).length = 1 ∧ (ran as).filter (fun entry => s.world.Connected entry.origin) <+:
      (joined as).filter (fun entry => s.world.Connected entry.origin) ∧ FramesOf s.world as 0 := by
  obtain ⟨as, s, htrace, hp⟩ := queueActs_traces plainHost threeRequests
    (fun as _ => decide ((joined as).length = 3) && decide ((ran as).length = 1)) (by decide +kernel)
  simp only [Bool.and_eq_true, decide_eq_true_eq] at hp
  obtain ⟨-, -, hfirst, hframes⟩ := served_in_order htrace
  exact ⟨as, s, htrace, hp.1, hp.2, hfirst, hframes 0⟩

end WireCommand.Uds
