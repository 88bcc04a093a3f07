import WireCommand.Uds.Invariant

/-!
# The functions of the poll server keep the invariant

One lemma for each function. The ones that serve a client say that they touch only this client, and
that it is in order afterwards unless the function failed; a failed client is removed.

Parsing is the one place where several requests move at once: `enqueueCompleteRequests_spec` follows
its loop and says which requests moved from the input to the queue, and why the loop stopped.
-/

namespace WireCommand.Uds

open Foundation.Framing Protocol

variable {host : Host} {w w' : World} {i : Slot}

/-! ## Removing -/

@[simp] theorem removeClient_received (released : Bool) :
    (removeClient w i released).received = w.received := by
  unfold removeClient
  simp only
  split <;> rfl

@[simp] theorem removeClient_sent (released : Bool) :
    (removeClient w i released).sent = w.sent := by
  unfold removeClient
  simp only
  split <;> rfl

@[simp] theorem removeClient_nextConn (released : Bool) :
    (removeClient w i released).nextConn = w.nextConn := by
  unfold removeClient
  simp only
  split <;> rfl

/-- A connection whose client was removed is not there any more. -/
theorem not_connected_removed (hv : w.Valid host) (hi : w.Live i) (ht : Touches i w w')
    (released : Bool) : ¬ (removeClient w' i released).Connected (w.clients i).conn := by
  rintro ⟨j, hj, hconn⟩
  obtain ⟨hj, hne⟩ := (removeClient_live released).mp hj
  rw [removeClient_clients released hne, ht.conn_eq] at hconn
  exact hne (hv.conn_inj j i (ht.live.mp hj) hi hconn)

/-! ## Parsing -/

theorem ofClient_queued_self (fd : Int) (conn : Nat) (rs : List Request) :
    Queue.ofClient (rs.map (queued fd conn)) fd = rs.map (queued fd conn) := by
  apply List.filter_eq_self.mpr
  intro entry hentry
  obtain ⟨r, -, rfl⟩ := List.mem_map.mp hentry
  simp

theorem ofClient_queued_of_ne {fd fd' : Int} (h : fd' ≠ fd) (conn : Nat) (rs : List Request) :
    Queue.ofClient (rs.map (queued fd conn)) fd' = [] := by
  apply List.filter_eq_nil_iff.mpr
  intro entry hentry
  obtain ⟨r, -, rfl⟩ := List.mem_map.mp hentry
  simp [h.symm]

/-- The size of a queued request's allocation does not wrap. -/
theorem argument_fits (r : Request) : r.argument.length ≤ sizeMax - Queue.nodeSize := by
  have := r.argument_length_lt
  simp only [sizeMax, Queue.nodeSize]
  omega

/-- Why `wc_uds_enqueue_complete_requests` returned, from what it left behind. -/
def EnqueueStopped (mallocOk : Nat → Bool) (input : Buffer) (queue : RequestQueue) :
    Except Errno Unit → Prop
  | .ok () => requestVerdict input.data = .needMore
  | .error e =>
      (e = .eproto ∧ requestVerdict input.data = .invalid) ∨
      (e = .enobufs ∧ queue.length = maxQueuedRequests ∧
        (requestVerdict input.data).isComplete = true) ∨
      (e = .enomem ∧ mallocOk queue.length = false)

/-- **Whole frames move from the input to the queue**, in order, until none is left or one cannot be
taken. -/
theorem enqueueCompleteRequests_spec {fd : Int} {conn : Nat} {mallocOk : Nat → Bool}
    {input input' : Buffer} {queue queue' : RequestQueue} {result : Except Errno Unit}
    (hfd : 0 ≤ fd) (hlen : queue.length ≤ maxQueuedRequests)
    (h : enqueueCompleteRequests fd conn mallocOk input queue = (result, input', queue')) :
    ∃ parsed : List Request,
      input.data = requestCodec.encodeAll parsed ++ input'.data ∧
      input'.maxSize = input.maxSize ∧
      queue' = queue ++ parsed.map (queued fd conn) ∧
      queue'.length ≤ maxQueuedRequests ∧
      EnqueueStopped mallocOk input' queue' result := by
  fun_induction enqueueCompleteRequests fd conn mallocOk input queue with
  | case1 input queue hparse =>
      cases h
      exact ⟨[], rfl, rfl, by simp, hlen, hparse⟩
  | case2 input queue hparse =>
      cases h
      exact ⟨[], rfl, rfl, by simp, hlen, .inl ⟨rfl, hparse⟩⟩
  | case3 input queue request consumed hparse hfull =>
      cases h
      refine ⟨[], rfl, rfl, by simp, hlen, .inr (.inl ⟨rfl, by omega, ?_⟩)⟩
      rw [hparse]; rfl
  | case4 input queue request consumed hparse hroom e henqueue =>
      cases h
      refine ⟨[], rfl, rfl, by simp, hlen, .inr (.inr ?_)⟩
      rw [Queue.enqueue_of_valid hfd (argument_fits request)] at henqueue
      split at henqueue
      · cases henqueue
      · next hmalloc => cases henqueue; exact ⟨rfl, by simpa using hmalloc⟩
  | case5 input queue request consumed hparse hroom queue₁ henqueue e hconsume =>
      -- what the parser consumed is there to be consumed
      obtain ⟨rfl, rest, hdata⟩ := requestVerdict_complete hparse
      obtain ⟨input₁, h₁⟩ := Buffer.consume_of_le input request.frame.length
        (by rw [hdata, List.length_append]; omega)
      rw [h₁] at hconsume
      cases hconsume
  | case6 input queue request consumed hparse hroom queue₁ henqueue input₁ hconsume ih =>
      obtain ⟨rfl, rest, hdata⟩ := requestVerdict_complete hparse
      obtain ⟨hdrop, hmax, -⟩ := Buffer.consume_ok hconsume
      obtain ⟨type, htype, -, hqueue₁⟩ := Queue.enqueue_ok henqueue
      have htype : type = request.type := RequestType.code_injective (Int.ofNat.inj htype)
      have hqueue₁ : queue₁ = queue ++ [queued fd conn request] := by rw [hqueue₁, htype]; rfl
      have hlen₁ : queue₁.length ≤ maxQueuedRequests := by
        rw [hqueue₁, List.length_append, List.length_singleton]; omega
      obtain ⟨parsed, hsplit, hmax', hqueue', hlen', hstop⟩ := ih hlen₁ h
      refine ⟨request :: parsed, ?_, hmax'.trans hmax, ?_, hlen', hstop⟩
      · have hrest : input₁.data = rest := by rw [hdrop, hdata, List.drop_left]
        rw [hdata, ← hrest, hsplit]
        simp
      · rw [hqueue', hqueue₁]
        simp

/-! ## Reading and writing -/

/-- **There is always room for a read**: an input that asks for more is shorter than the limit. -/
theorem ClientOk.nextReadSize_pos {client : Client} (hok : ClientOk host w client) :
    0 < nextReadSize client.input := by
  have hshort := length_lt_of_needMore hok.parsed
  rw [nextReadSize, Buffer.nextReadSize_eq, hok.input_limit]
  simp only [inputLimit, uint16Max, readSize] at hshort ⊢
  omega

theorem Touches.refl (hv : w.Valid host) : Touches i w w where
  fd := rfl
  conn := rfl
  clients _ _ := rfl
  openFds := rfl
  nextConn := rfl
  received _ _ := rfl
  sent _ _ := rfl
  queue _ _ := rfl
  owned _ h := .inr h
  queue_le := hv.queue_le

/-- Bytes that were read and could not be stored concern their connection alone. -/
theorem touches_noteReceived (hv : w.Valid host) (bytes : Bytes) :
    Touches i w (w.noteReceived (w.clients i).conn bytes) :=
  { Touches.refl hv with received := fun _ hc => Function.update_of_ne hc _ _ }

/-- The world after an iteration that read some bytes and parsed them. -/
def World.afterRead (w : World) (i : Slot) (bytes : Bytes) (input : Buffer) (queue : RequestQueue) :
    World :=
  { (w.noteReceived (w.clients i).conn bytes).setClient i { w.clients i with input := input } with
    queue := queue }

theorem touches_afterRead (bytes : Bytes) (input : Buffer) {parsed : List Request}
    (hlen : (w.queue ++ parsed.map (queued (w.clients i).fd (w.clients i).conn)).length ≤
      maxQueuedRequests) :
    Touches i w (w.afterRead i bytes input
      (w.queue ++ parsed.map (queued (w.clients i).fd (w.clients i).conn))) where
  fd := by simp [World.afterRead, World.setClient]
  conn := by simp [World.afterRead, World.setClient]
  clients j hj := Function.update_of_ne hj _ _
  openFds := rfl
  nextConn := rfl
  received c hc := Function.update_of_ne hc _ _
  sent _ _ := rfl
  queue fd hfd := by
    simp only [World.afterRead, Queue.ofClient_append, ofClient_queued_of_ne hfd, List.append_nil]
  owned entry hentry := by
    rcases List.mem_append.mp hentry with hold | hnew
    · exact .inr hold
    · obtain ⟨r, -, rfl⟩ := List.mem_map.mp hnew
      exact .inl rfl
  queue_le := hlen

/-- What one iteration of `wc_uds_read_client` does. There is always room for a read, so what is
left to fail is the allocator and the requests themselves. -/
inductive Read (w : World) (i : Slot) (env : ReadEnv) : ReadOutcome → Iteration × World → Prop
  | eof : Read w i env .eof (.failed, w)
  | interrupted : Read w i env .interrupted (.again, w)
  | wouldBlock : Read w i env .wouldBlock (.done, w)
  | failed : Read w i env .failed (.failed, w)
  /-- The bytes cannot be stored. -/
  | lost {bytes : Bytes} (halloc : env.reallocOk = false) (hbytes : bytes ≠ []) :
      Read w i env (.data bytes) (.failed, w.noteReceived (w.clients i).conn bytes)
  | parsed {bytes : Bytes} {appended input : Buffer} {parsed : List Request}
      {result : Except Errno Unit} (hdata : appended.data = (w.clients i).input.data ++ bytes)
      (hmax : input.maxSize = (w.clients i).input.maxSize)
      (hsplit : appended.data = requestCodec.encodeAll parsed ++ input.data)
      (hlen : (w.queue ++ parsed.map (queued (w.clients i).fd (w.clients i).conn)).length ≤
        maxQueuedRequests)
      (henqueue : enqueueCompleteRequests (w.clients i).fd (w.clients i).conn env.mallocOk appended
        w.queue =
          (result, input, w.queue ++ parsed.map (queued (w.clients i).fd (w.clients i).conn)))
      (hstop : EnqueueStopped env.mallocOk input
        (w.queue ++ parsed.map (queued (w.clients i).fd (w.clients i).conn)) result)
      (hbytes : bytes ≠ []) :
      Read w i env (.data bytes)
        (match result with | .ok _ => .again | .error _ => .failed,
          w.afterRead i bytes input
            (w.queue ++ parsed.map (queued (w.clients i).fd (w.clients i).conn)))

theorem readClient_read {outcome : ReadOutcome} {env : ReadEnv} {result : Iteration × World}
    (hv : w.Valid host) (hi : w.Live i) (h : readClient w i outcome env = some result) :
    Read w i env outcome result := by
  have hok := hv.client i hi
  unfold readClient at h
  simp only at h
  rw [if_neg (Nat.ne_of_gt hok.nextReadSize_pos)] at h
  cases outcome with
  | eof => cases h; exact .eof
  | interrupted => cases h; exact .interrupted
  | wouldBlock => cases h; exact .wouldBlock
  | failed => cases h; exact .failed
  | data bytes =>
      simp only at h
      split at h
      · next hbytes =>
          have hne : bytes ≠ [] := List.ne_nil_of_length_pos hbytes.1
          split at h
          · next e happend =>
              cases h
              -- the bytes fit, so only the allocator can have failed
              refine .lost (Bool.eq_false_iff.mpr fun halloc => ?_) hne
              obtain ⟨appended, hfits⟩ := Buffer.append_of_nextReadSize hbytes.2
              rw [halloc, hfits] at happend
              cases happend
          · next appended happend =>
              obtain ⟨hdata, hmax, -⟩ := Buffer.append_ok happend
              obtain ⟨result, input, queue, henqueue⟩ : ∃ result input queue,
                  enqueueCompleteRequests (w.clients i).fd (w.clients i).conn env.mallocOk appended
                    w.queue = (result, input, queue) := ⟨_, _, _, rfl⟩
              obtain ⟨parsed, hsplit, hmax', rfl, hlen, hstop⟩ :=
                enqueueCompleteRequests_spec hok.fd_nonneg hv.queue_le henqueue
              have hread := Read.parsed hdata (hmax'.trans hmax) hsplit hlen henqueue hstop hne
              simp only [World.noteReceived, henqueue] at h
              cases result with
              | error e => cases h; exact hread
              | ok _ => cases h; exact hread
      · cases h

/-- What one iteration of `wc_uds_read_client` does to its client. -/
theorem readClient_spec {outcome : ReadOutcome} {env : ReadEnv} {iteration : Iteration}
    (hv : w.Valid host) (hi : w.Live i)
    (h : readClient w i outcome env = some (iteration, w')) :
    Touches i w w' ∧ (iteration ≠ .failed → ClientOk host w' (w'.clients i)) := by
  have hok := hv.client i hi
  cases readClient_read hv hi h with
  | eof | interrupted | wouldBlock | failed => exact ⟨.refl hv, fun _ => hok⟩
  | lost _ => exact ⟨touches_noteReceived hv _, fun hne => absurd rfl hne⟩
  | @parsed bytes appended input parsed result hdata hmax hsplit hlen henqueue hstop =>
      refine ⟨touches_afterRead bytes input hlen, fun hne => ?_⟩
      cases result with
      | error e => exact absurd rfl hne
      | ok _ =>
          obtain ⟨answered, pending, hledger, hqueue⟩ := hok.balanced
          have hledger' := hledger.receive bytes
          rw [← hdata, hsplit] at hledger'
          simp only [World.afterRead, World.noteReceived, World.setClient, Function.update_self]
          refine ⟨hok.fd_nonneg, hok.fd_open, hok.conn_lt, ?_, hok.output_limit, hstop,
            answered, pending ++ parsed, ?_, ?_⟩
          · rw [hmax, hok.input_limit]
          · simpa using hledger'.parse
          · simp only [Queue.ofClient_append, ofClient_queued_self, hqueue, List.map_append]

/-- The world after an iteration that sent some bytes. -/
def World.afterSend (w : World) (i : Slot) (count : Nat) (output : Buffer) : World :=
  (w.noteSent (w.clients i).conn ((w.clients i).output.data.take count)).setClient i
    { w.clients i with output := output }

@[simp] theorem afterSend_input {j : Slot} (count : Nat) (output : Buffer) :
    ((w.afterSend i count output).clients j).input = (w.clients j).input := by
  by_cases hj : j = i
  · subst hj
    simp [World.afterSend, World.setClient, World.noteSent]
  · simp [World.afterSend, World.setClient, World.noteSent, hj]

/-- What one iteration of `wc_uds_write_client` does. What was sent can be consumed. -/
inductive Wrote (w : World) (i : Slot) : SendOutcome → Iteration × World → Prop
  | nothing {outcome : SendOutcome} (hempty : (w.clients i).output.data = []) :
      Wrote w i outcome (.done, w)
  | interrupted : Wrote w i .interrupted (.again, w)
  | wouldBlock : Wrote w i .wouldBlock (.done, w)
  | failed : Wrote w i .failed (.failed, w)
  | sent {count : Nat} {output : Buffer}
      (hdata : output.data = (w.clients i).output.data.drop count)
      (hmax : output.maxSize = (w.clients i).output.maxSize)
      (hcount : 0 < count ∧ count ≤ (w.clients i).output.length) :
      Wrote w i (.sent count) (.again, w.afterSend i count output)

theorem writeClient_wrote {outcome : SendOutcome} {result : Iteration × World}
    (h : writeClient w i outcome = some result) : Wrote w i outcome result := by
  unfold writeClient at h
  simp only at h
  split at h
  · next hempty => cases h; exact .nothing (List.length_eq_zero_iff.mp hempty)
  · cases outcome with
    | interrupted => cases h; exact .interrupted
    | wouldBlock => cases h; exact .wouldBlock
    | failed => cases h; exact .failed
    | sent count =>
        simp only at h
        split at h
        · next hcount =>
            obtain ⟨output, hconsume⟩ := Buffer.consume_of_le (w.clients i).output count hcount.2
            obtain ⟨hdata, hmax, -⟩ := Buffer.consume_ok hconsume
            rw [hconsume] at h
            cases h
            exact .sent hdata hmax hcount
        · cases h

/-- What one iteration of `wc_uds_write_client` does to its client. -/
theorem writeClient_spec {outcome : SendOutcome} {iteration : Iteration}
    (hv : w.Valid host) (hi : w.Live i) (h : writeClient w i outcome = some (iteration, w')) :
    Touches i w w' ∧ (iteration ≠ .failed → ClientOk host w' (w'.clients i)) := by
  have hok := hv.client i hi
  cases writeClient_wrote h with
  | nothing | interrupted | wouldBlock | failed => exact ⟨.refl hv, fun _ => hok⟩
  | @sent count output hdata hmax =>
      constructor
      · exact { Touches.refl hv with
          fd := by simp [World.afterSend, World.setClient, World.noteSent]
          conn := by simp [World.afterSend, World.setClient, World.noteSent]
          clients := fun j hj => Function.update_of_ne hj _ _
          sent := fun _ hc => Function.update_of_ne hc _ _ }
      · intro _
        obtain ⟨answered, pending, hledger, hqueue⟩ := hok.balanced
        simp only [World.afterSend, World.setClient, World.noteSent, Function.update_self]
        refine ⟨hok.fd_nonneg, hok.fd_open, hok.conn_lt, hok.input_limit, ?_, hok.parsed,
          answered, pending, ?_, hqueue⟩
        · rw [hmax, hok.output_limit]
        · simpa [hdata] using hledger.send count

/-! ## Processing -/

theorem findClient_some {clients : Clients} {fd : Int} (h : findClient clients fd = some i) :
    (clients i).fd = fd := by
  simpa using List.find?_some h

theorem findClient_isSome {clients : Clients} {fd : Int} (h : (clients i).fd = fd) :
    (findClient clients fd).isSome := by
  rw [findClient, List.find?_isSome]
  exact ⟨i, List.mem_finRange i, by simpa using h⟩

/-- **The head of the queue has a client**, so the branch for a request without one is never
taken. -/
theorem World.Valid.findClient_head (hv : w.Valid host) {first : QueuedRequest}
    {rest : RequestQueue} (hqueue : w.queue = first :: rest) :
    ∃ i, findClient w.clients first.clientFd = some i ∧ w.Live i ∧
      (w.clients i).fd = first.clientFd := by
  obtain ⟨j, hj, hfd⟩ := hv.owned first (by rw [hqueue]; exact List.mem_cons_self)
  obtain ⟨i, hfind⟩ := Option.isSome_iff_exists.mp (findClient_isSome hfd)
  have hi := findClient_some hfind
  have hlive : w.Live i := by
    unfold World.Live at hj ⊢
    rwa [hi, ← hfd]
  exact ⟨i, hfind, hlive, hi⟩

/-- The world after the head of the queue was taken off for its client. -/
def World.afterDequeue (w : World) (i : Slot) (output : Buffer) (rest : RequestQueue) : World :=
  { w.setClient i { w.clients i with output := output } with queue := rest }

@[simp] theorem afterDequeue_input {j : Slot} (output : Buffer) (rest : RequestQueue) :
    ((w.afterDequeue i output rest).clients j).input = (w.clients j).input := by
  by_cases hj : j = i
  · subst hj
    simp [World.afterDequeue, World.setClient]
  · simp [World.afterDequeue, World.setClient, hj]

theorem touches_afterDequeue (hv : w.Valid host) {first : QueuedRequest} {rest : RequestQueue}
    (hqueue : w.queue = first :: rest) (hfd : (w.clients i).fd = first.clientFd) (output : Buffer) :
    Touches i w (w.afterDequeue i output rest) where
  fd := by simp [World.afterDequeue, World.setClient]
  conn := by simp [World.afterDequeue, World.setClient]
  clients j hj := Function.update_of_ne hj _ _
  openFds := rfl
  nextConn := rfl
  received _ _ := rfl
  sent _ _ := rfl
  queue fd hne := by
    rw [hfd] at hne
    simp [World.afterDequeue, hqueue, Queue.ofClient, hne.symm]
  owned entry hentry := .inr (by rw [hqueue]; exact List.mem_cons_of_mem _ hentry)
  queue_le := by
    have := hv.queue_le
    rw [hqueue, List.length_cons] at this
    simp only [World.afterDequeue]
    omega

/-- The head of the queue is its client's first pending request. -/
theorem ClientOk.pending_head {client : Client} (hok : ClientOk host w client)
    {first : QueuedRequest} {rest : RequestQueue} (hqueue : w.queue = first :: rest)
    (hfd : client.fd = first.clientFd) :
    ∃ answered r pending,
      Ledger requestCodec (respond host) (w.received client.conn) (w.sent client.conn)
        answered (r :: pending) client.input.data client.output.data ∧
      first = queued client.fd client.conn r ∧
      Queue.ofClient rest client.fd = pending.map (queued client.fd client.conn) := by
  obtain ⟨answered, pending, hledger, hpending⟩ := hok.balanced
  have hhead : Queue.ofClient w.queue client.fd = first :: Queue.ofClient rest client.fd := by
    simp [hqueue, Queue.ofClient, hfd]
  rw [hhead] at hpending
  cases pending with
  | nil => cases hpending
  | cons r pending =>
      simp only [List.map_cons, List.cons.injEq] at hpending
      exact ⟨answered, r, pending, hledger, hpending.1, hpending.2⟩

/-- What one iteration of `wc_uds_process_queue` does. -/
inductive Processed (host : Host) (w : World) (env : Response.Env) (released : Bool) :
    Bool × World → Prop
  /-- The queue is empty, or the head's client has to be sent its last response first. -/
  | waits (h : ∀ first rest, w.queue = first :: rest → ∃ i, w.Live i ∧
        (w.clients i).fd = first.clientFd ∧ (w.clients i).output.data ≠ []) :
      Processed host w env released (false, w)
  | answered {first : QueuedRequest} {rest : RequestQueue} {i : Slot} {output : Buffer}
      (hqueue : w.queue = first :: rest) (hi : w.Live i) (hfd : (w.clients i).fd = first.clientFd)
      (hempty : (w.clients i).output.data = [])
      (hencode : encodeCommandResponse host (w.clients i).output first env = (.ok (), output)) :
      Processed host w env released (true, w.afterDequeue i output rest)
  | failed {first : QueuedRequest} {rest : RequestQueue} {i : Slot} {output : Buffer} {e : Errno}
      (hqueue : w.queue = first :: rest) (hi : w.Live i) (hfd : (w.clients i).fd = first.clientFd)
      (hempty : (w.clients i).output.data = [])
      (hencode : encodeCommandResponse host (w.clients i).output first env = (.error e, output)) :
      Processed host w env released (true, removeClient (w.afterDequeue i output rest) i released)

theorem processQueue_spec (hv : w.Valid host) (env : Response.Env) (released : Bool) :
    Processed host w env released (processQueue host w env released) := by
  unfold processQueue
  cases hqueue : w.queue with
  | nil => exact .waits fun first rest h => by rw [hqueue] at h; cases h
  | cons first rest =>
      obtain ⟨i, hfind, hi, hfd⟩ := hv.findClient_head hqueue
      simp only [Queue.peek_cons, hfind, Queue.dequeue]
      split
      · next hwaiting =>
          refine .waits fun first' rest' h => ⟨i, hi, ?_, ?_⟩
          · rw [hqueue] at h
            cases h
            exact hfd
          · exact fun hempty => hwaiting (by rw [Buffer.length, hempty]; rfl)
      · next hempty =>
          have hempty : (w.clients i).output.data = [] := by
            simpa [Buffer.length] using hempty
          obtain ⟨result, output, hencode⟩ : ∃ result output,
              encodeCommandResponse host (w.clients i).output first env = (result, output) :=
            ⟨_, _, rfl⟩
          rw [hencode]
          cases result with
          | error e => exact .failed hqueue hi hfd hempty hencode
          | ok _ => exact .answered hqueue hi hfd hempty hencode

/-- One iteration of `wc_uds_process_queue` keeps the invariant. -/
theorem processQueue_valid (hv : w.Valid host) (env : Response.Env) (released : Bool) :
    (processQueue host w env released).2.Valid host := by
  have hspec := processQueue_spec hv env released
  generalize processQueue host w env released = result at hspec ⊢
  cases hspec with
  | waits _ => exact hv
  | failed hqueue hi hfd _ _ => exact hv.remove hi (touches_afterDequeue hv hqueue hfd _) released
  | @answered first rest i output hqueue hi hfd hempty hencode =>
      have hok := hv.client i hi
      apply hv.touch hi (touches_afterDequeue hv hqueue hfd output)
      -- the response to the head request fills the empty output buffer
      obtain ⟨answered, r, pending, hledger, hfirst, hrest⟩ := hok.pending_head hqueue hfd
      obtain ⟨hdata, hmax⟩ := Response.encodeCommandResponse_ok hencode
      rw [hempty] at hledger hdata
      simp only [World.afterDequeue, World.setClient, Function.update_self]
      refine ⟨hok.fd_nonneg, hok.fd_open, hok.conn_lt, hok.input_limit, ?_, hok.parsed,
        answered ++ [r], pending, ?_, hrest⟩
      · rw [hmax, hok.output_limit]
      · have hrespond : output.data = respond host r := by rw [hdata, hfirst]; rfl
        rw [hrespond]
        exact hledger.answer

/-! ## Accepting -/

theorem hasFreeClientSlot_iff {clients : Clients} :
    hasFreeClientSlot clients = true ↔ ∃ i, (clients i).fd = -1 := by
  simp [hasFreeClientSlot]

/-- **An accepted client finds a slot.** `wc_uds_accept_clients` has just looked for one, so
`wc_uds_add_client` does not fail. -/
theorem addClient_of_free {clients : Clients} (h : hasFreeClientSlot clients = true) (fd : Int)
    (conn : Nat) :
    ∃ i, (clients i).fd = -1 ∧
      addClient clients fd conn = .ok (Function.update clients i (.connected fd conn)) := by
  obtain ⟨j, hj⟩ := hasFreeClientSlot_iff.mp h
  have hsome : (findClient clients (-1)).isSome := findClient_isSome hj
  obtain ⟨i, hfind⟩ := Option.isSome_iff_exists.mp hsome
  refine ⟨i, findClient_some hfind, ?_⟩
  unfold findClient at hfind
  rw [addClient, hfind]

/-- What an iteration of `wc_uds_accept_clients` does when a connection arrives. -/
inductive Arrival (w : World) (fd : Int) (nonblockingOk released : Bool) : World → Prop
  | rejected (h : nonblockingOk = false) (hnew : fd ∉ w.openFds) :
      Arrival w fd nonblockingOk released ((w.connect fd).close fd released)
  | added (i : Slot) (hi : (w.clients i).fd = -1) (hfd : 0 ≤ fd) (hnew : fd ∉ w.openFds) :
      Arrival w fd nonblockingOk released
        ((w.connect fd).setClient i (.connected fd w.nextConn))

/-- When a connection arrives, a client is an old one or the new one. -/
theorem Arrival.live {fd : Int} {nonblockingOk released : Bool} {j : Slot}
    (h : Arrival w fd nonblockingOk released w') (hj : w'.Live j) :
    (w.Live j ∧ (w'.clients j).conn = (w.clients j).conn) ∨
      (w'.clients j).conn = w.nextConn := by
  cases h with
  | rejected _ _ => exact .inl ⟨hj, rfl⟩
  | added i hi _ _ =>
      by_cases hji : j = i
      · rw [hji, setClient_self]
        exact .inr rfl
      · rw [World.Live, setClient_of_ne _ _ hji] at hj
        rw [setClient_of_ne _ _ hji]
        exact .inl ⟨hj, rfl⟩

/-- A connection on which `fcntl` succeeds gets a slot. -/
theorem Arrival.slot {fd : Int} {nonblockingOk released : Bool}
    (h : Arrival w fd nonblockingOk released w') (hfcntl : nonblockingOk = true) :
    ∃ i, w'.Live i ∧ (w'.clients i).conn = w.nextConn := by
  cases h with
  | rejected h _ => rw [hfcntl] at h; cases h
  | added i hi hfd _ =>
      refine ⟨i, ?_, by rw [setClient_self]; rfl⟩
      rw [World.Live, setClient_self]
      show fd ≠ -1
      omega

/-- Otherwise it changes the number of connections, and nothing of the streams. -/
theorem Arrival.streams {fd : Int} {nonblockingOk released : Bool}
    (h : Arrival w fd nonblockingOk released w') :
    w'.nextConn = w.nextConn + 1 ∧ w'.received = w.received ∧ w'.sent = w.sent := by
  cases h <;> exact ⟨rfl, rfl, rfl⟩

theorem acceptClients_arrival {outcome : AcceptOutcome} {nonblockingOk released again : Bool}
    (h : acceptClients w outcome nonblockingOk released = some (again, w')) :
    w' = w ∨ ∃ fd, outcome = .accepted fd ∧ Arrival w fd nonblockingOk released w' := by
  unfold acceptClients at h
  split at h
  · next hfree =>
      cases outcome with
      | interrupted => cases h; exact .inl rfl
      | wouldBlock => cases h; exact .inl rfl
      | failed => cases h; exact .inl rfl
      | accepted fd =>
          simp only at h
          split at h
          · next hfd =>
              split at h
              · obtain ⟨i, hi, hadd⟩ := addClient_of_free hfree fd w.nextConn
                simp only [World.connect, hadd] at h
                cases h
                exact .inr ⟨fd, rfl, .added i hi hfd.1 hfd.2⟩
              · next hfcntl =>
                  cases h
                  exact .inr ⟨fd, rfl, .rejected (by simpa using hfcntl) hfd.2⟩
          · cases h
  · cases h; exact .inl rfl

/-- Descriptors that are not the clients' may come and go. -/
theorem World.Valid.reopen (hv : w.Valid host) {openFds : Finset Int} {nextConn : Nat}
    (hopen : ∀ i, w.Live i → (w.clients i).fd ∈ openFds) (hnext : w.nextConn ≤ nextConn) :
    World.Valid host { w with openFds := openFds, nextConn := nextConn } where
  client i hi := (hv.client i hi).frame (hopen i hi) hnext rfl rfl rfl
  fd_inj := hv.fd_inj
  conn_inj := hv.conn_inj
  owned := hv.owned
  queue_le := hv.queue_le
  fresh c hc := hv.fresh c (le_trans hnext hc)

/-- A connection that is closed again at once. -/
theorem World.Valid.reject (hv : w.Valid host) {fd : Int} (hfd : fd ∉ w.openFds) (released : Bool) :
    ((w.connect fd).close fd released).Valid host := by
  apply hv.reopen _ (Nat.le_succ _)
  intro i hi
  have hopen := (hv.client i hi).fd_open
  have hne : (w.clients i).fd ≠ fd := fun h => hfd (h ▸ hopen)
  simp only [World.connect]
  split
  · exact Finset.mem_erase.mpr ⟨hne, Finset.mem_insert_of_mem hopen⟩
  · exact Finset.mem_insert_of_mem hopen

/-- A client that differs from all others may take a slot. -/
theorem separates_setClient {α : Type} {f : Client → α} {client : Client} (h : w.Separates f)
    (hnew : ∀ j, w.Live j → f (w.clients j) ≠ f client) : (w.setClient i client).Separates f := by
  have hold : ∀ {j}, j ≠ i → (w.setClient i client).Live j →
      w.Live j ∧ (w.setClient i client).clients j = w.clients j := by
    intro j hne hj
    have heq := setClient_of_ne w client hne
    exact ⟨by rwa [World.Live, heq] at hj, heq⟩
  intro j k hj hk hf
  by_cases hji : j = i <;> by_cases hki : k = i
  · rw [hji, hki]
  · obtain ⟨hk, heq⟩ := hold hki hk
    rw [hji, setClient_self, heq] at hf
    exact absurd hf.symm (hnew k hk)
  · obtain ⟨hj, heq⟩ := hold hji hj
    rw [hki, setClient_self, heq] at hf
    exact absurd hf (hnew j hj)
  · obtain ⟨hj, heqj⟩ := hold hji hj
    obtain ⟨hk, heqk⟩ := hold hki hk
    rw [heqj, heqk] at hf
    exact h j k hj hk hf

/-- A connection that gets a slot. -/
theorem World.Valid.add (hv : w.Valid host) {fd : Int} (hnonneg : 0 ≤ fd) (hfd : fd ∉ w.openFds)
    (hi : (w.clients i).fd = -1) :
    ((w.connect fd).setClient i (.connected fd w.nextConn)).Valid host := by
  have hfresh : ∀ {j}, w.Live j → (w.clients j).fd ≠ fd ∧ (w.clients j).conn ≠ w.nextConn := by
    intro j hj
    have hok := hv.client j hj
    exact ⟨fun h => hfd (h ▸ hok.fd_open), Nat.ne_of_lt hok.conn_lt⟩
  have hnone : Queue.ofClient w.queue fd = [] := by
    apply List.filter_eq_nil_iff.mpr
    intro entry hentry
    obtain ⟨j, hj, hjfd⟩ := hv.owned entry hentry
    simpa [← hjfd] using (hfresh hj).1
  have hold : ∀ {j}, j ≠ i →
      ((w.connect fd).setClient i (.connected fd w.nextConn)).clients j = w.clients j :=
    fun hj => setClient_of_ne _ _ hj
  have hlive : ∀ {j}, j ≠ i →
      (((w.connect fd).setClient i (.connected fd w.nextConn)).Live j ↔ w.Live j) := by
    intro j hj
    rw [World.Live, World.Live, hold hj]
  obtain ⟨hreceived, hsent⟩ := hv.fresh w.nextConn (le_refl _)
  refine ⟨?_, ?_, ?_, ?_, hv.queue_le, ?_⟩
  · intro j hj
    by_cases hne : j = i
    · subst hne
      rw [setClient_self]
      refine ⟨hnonneg, Finset.mem_insert_self _ _, Nat.lt_succ_self _, rfl, rfl, rfl, [], [], ?_,
        hnone⟩
      simpa [Client.connected, World.connect, World.setClient, hreceived, hsent] using Ledger.start
    · have hok := hv.client j ((hlive hne).mp hj)
      rw [hold hne]
      exact hok.frame (Finset.mem_insert_of_mem hok.fd_open) (Nat.le_succ _) rfl rfl rfl
  · exact separates_setClient hv.fd_inj fun j hj => (hfresh hj).1
  · exact separates_setClient hv.conn_inj fun j hj => (hfresh hj).2
  · intro entry hentry
    obtain ⟨j, hj, hjfd⟩ := hv.owned entry hentry
    have hne : j ≠ i := by
      rintro rfl
      exact hj hi
    exact ⟨j, (hlive hne).mpr hj, by rw [hold hne, hjfd]⟩
  · intro c hc
    exact hv.fresh c (le_trans (Nat.le_succ _) hc)

/-- One iteration of `wc_uds_accept_clients` keeps the invariant. -/
theorem acceptClients_valid {outcome : AcceptOutcome} {nonblockingOk released again : Bool}
    (hv : w.Valid host) (h : acceptClients w outcome nonblockingOk released = some (again, w')) :
    w'.Valid host := by
  rcases acceptClients_arrival h with rfl | ⟨fd, -, harrival⟩
  · exact hv
  · cases harrival with
    | rejected _ hnew => exact hv.reject hnew released
    | added i hi hfd hnew => exact hv.add hfd hnew hi

end WireCommand.Uds
