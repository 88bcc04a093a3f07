import WireCommand.Uds.Isolation

/-!
# What the poll server asks `poll` for

`poll` sleeps without a timeout, so what the server needs to be woken for has to be in the list when
it falls asleep. Three things see to that. `wc_uds_process_queue` stops only at an empty queue or at
a request whose client has not been sent its last response; the poll list is built from the table
right behind it; and no whole request is left in an input buffer, where no event would announce it.

* `poll_interest` says so of every call of `poll` in every run.
* The queue is served strictly in order, so a request may wait although its own client is ready for
  the response: `head_of_line` says for whom it waits, and `held_back` is a run in which it does.
-/

namespace WireCommand.Uds

open Foundation Foundation.Framing Protocol

variable {host : Host} {w w' : World} {i : Slot} {s s' : State} {e : Event}

/-! ## The end of the queue's turn -/

/-- The queue is empty, or its head waits until its client has been sent the last response. -/
def Waiting (w : World) : Prop :=
  ∀ first rest, w.queue = first :: rest →
    ∃ i, w.Live i ∧ (w.clients i).fd = first.clientFd ∧ (w.clients i).output.data ≠ []

/-- `wc_uds_process_queue` returns only then. -/
theorem processQueue_waiting {env : Response.Env} {released : Bool} (hv : w.Valid host)
    (h : processQueue host w env released = (false, w')) : Waiting w' := by
  have hspec := processQueue_spec hv env released
  rw [h] at hspec
  cases hspec with
  | waits hwaits => exact hwaits

/-- An iteration that does not return takes a request off the queue. -/
theorem processQueue_length {env : Response.Env} {released : Bool} (hv : w.Valid host)
    (h : processQueue host w env released = (true, w')) : w'.queue.length < w.queue.length := by
  have hspec := processQueue_spec hv env released
  rw [h] at hspec
  cases hspec with
  | answered hqueue _ _ _ _ =>
      rw [hqueue]
      exact Nat.lt_succ_self _
  | @failed first rest i output errno hqueue hi hfd _ _ =>
      have hi' := (touches_afterDequeue hv hqueue hfd output).live.mpr hi
      rw [removeClient_eq hi', hqueue, List.length_cons]
      exact Nat.lt_succ_of_le (Queue.discardClient_length_le _ _)

/-- `wc_uds_process_queue` as a whole, for at most `fuel` iterations; `none` when it is still
running then. `envs` says what goes wrong in each of them. -/
def processQueueLoop (host : Host) (envs : Nat → Response.Env × Bool) : Nat → World → Option World
  | 0, _ => none
  | fuel + 1, w =>
      match processQueue host w (envs fuel).1 (envs fuel).2 with
      | (false, w) => some w
      | (true, w) => processQueueLoop host envs fuel w

/-- **`wc_uds_process_queue` terminates**: it has one iteration for each queued request at most, and
one to find that nothing is left to do. -/
theorem processQueueLoop_terminates (envs : Nat → Response.Env × Bool) {fuel : Nat}
    (hv : w.Valid host) (hfuel : w.queue.length < fuel) :
    ∃ w', processQueueLoop host envs fuel w = some w' ∧ Waiting w' := by
  induction fuel generalizing w with
  | zero => exact absurd hfuel (Nat.not_lt_zero _)
  | succ fuel ih =>
      have hvalid := processQueue_valid hv (envs fuel).1 (envs fuel).2
      unfold processQueueLoop
      cases hprocess : processQueue host w (envs fuel).1 (envs fuel).2 with
      | mk again w₁ =>
          rw [hprocess] at hvalid
          cases again with
          | false => exact ⟨w₁, rfl, processQueue_waiting hv hprocess⟩
          | true =>
              have hlength := processQueue_length hv hprocess
              exact ih hvalid (by omega)

/-! ## The poll list is up to date -/

/-- What the program counter promises about the queue and the poll list. -/
def PollOk (w : World) : Pc → Prop
  | .buildPollList => Waiting w
  | .polling listener entries _ =>
      Waiting w ∧ listener = listenerEvents w.clients ∧ entries = buildPollList w.clients
  | _ => True

theorem pollOk_interrupt {pc : Pc} (h : PollOk w pc) : PollOk w pc.interrupt := by
  cases pc <;> exact h

/-- Where a visit goes on nothing is promised. -/
theorem continueVisit_pollOk {entry : PollEntry} {listener : Revents} {todo : List PollEntry}
    {phase phase' : Phase} {stop released : Bool} (result : Iteration × World) :
    PollOk w' (continueVisit ⟨.visiting phase entry listener todo, stop, w⟩ entry listener todo
      (.visiting phase' entry listener todo) released result).pc := by
  obtain ⟨iteration, w₁⟩ := result
  cases iteration <;> trivial

theorem Move.pollOk (hmove : Move host s e s') (hs : s.Valid host) (hp : PollOk s.world s.pc) :
    PollOk s'.world s'.pc := by
  cases hmove with
  | signal _ => exact pollOk_interrupt hp
  | @process stop w env released again w' hprocess =>
      cases again with
      | false => exact processQueue_waiting hs.world hprocess
      | true => trivial
  | build => exact ⟨hp, rfl, rfl⟩
  | served => simp only; split <;> trivial
  | visit _ =>
      simp only [Uds.visit, afterRead]
      split <;> trivial
  | read _ => exact continueVisit_pollOk _
  | send _ => exact continueVisit_pollOk _
  | @accept stop w outcome nonblockingOk released again w' _ => cases again <;> trivial
  | _ => trivial

theorem pollOk_inductive (host : Host) :
    (server host).Inductive fun s => s.Valid host ∧ PollOk s.world s.pc where
  init := by
    rintro s ⟨openFds, stopRequested, rfl⟩
    exact ⟨valid_start openFds stopRequested, trivial⟩
  step _ _ _ hs hstep := ⟨(step_move hstep).valid hs.1, (step_move hstep).pollOk hs.1 hs.2⟩

/-- The promises about a call of `poll`. -/
theorem pollOk_of_polling (hs : (server host).Reachable s) {listener : Events}
    {entries : List PollEntry} {interrupted : Bool}
    (hpc : s.pc = .polling listener entries interrupted) :
    Waiting s.world ∧ listener = listenerEvents s.world.clients ∧
      entries = buildPollList s.world.clients := by
  have h := ((pollOk_inductive host).reachable hs).2
  rwa [hpc] at h

/-! ## The entries of the poll list -/

/-- Filtering a list without repetitions for one of its members. -/
theorem filter_eq_singleton {α : Type} [DecidableEq α] {l : List α} {a : α} (hnodup : l.Nodup)
    (ha : a ∈ l) : l.filter (· = a) = [a] := by
  show l.filter (· == a) = [a]
  rw [List.filter_beq, List.count_eq_one_of_mem hnodup ha]
  rfl

/-- **A client has one entry**, found by its descriptor and by its slot alike. -/
theorem filter_buildPollList (hv : w.Valid host) (hi : w.Live i) :
    (buildPollList w.clients).filter (·.fd = (w.clients i).fd) = [pollEntry w.clients i] ∧
      (buildPollList w.clients).filter (·.slot = i) = [pollEntry w.clients i] := by
  let live := (List.finRange maxClients).filter fun i => (w.clients i).fd ≠ -1
  have hmem : ∀ {j}, j ∈ live ↔ w.Live j := by simp [live, World.Live]
  have hone : live.filter (· = i) = [i] :=
    filter_eq_singleton ((List.nodup_finRange _).filter _) (hmem.mpr hi)
  have hfd : live.filter (fun j => decide ((w.clients j).fd = (w.clients i).fd)) = [i] := by
    rw [← hone]
    apply List.filter_congr
    intro j hj
    simp only [decide_eq_decide]
    exact ⟨hv.fd_inj j i (hmem.mp hj) hi, fun h => by rw [h]⟩
  constructor
  · show (live.map (pollEntry w.clients)).filter (·.fd = (w.clients i).fd) = _
    rw [List.filter_map]
    show (live.filter fun j => decide ((w.clients j).fd = (w.clients i).fd)).map _ = _
    rw [hfd, List.map_singleton]
  · show (live.map (pollEntry w.clients)).filter (·.slot = i) = _
    rw [List.filter_map]
    show (live.filter (· = i)).map _ = _
    rw [hone, List.map_singleton]

theorem mem_buildPollList (hi : w.Live i) : pollEntry w.clients i ∈ buildPollList w.clients :=
  List.mem_map_of_mem (List.mem_filter.mpr ⟨List.mem_finRange i, decide_eq_true hi⟩)

/-- Only clients have entries. -/
theorem live_of_mem_buildPollList {entry : PollEntry} (h : entry ∈ buildPollList w.clients) :
    w.Live entry.slot ∧ entry = pollEntry w.clients entry.slot := by
  obtain ⟨i, hi, rfl⟩ := List.mem_map.mp h
  have hlive := (List.mem_filter.mp hi).2
  exact ⟨of_decide_eq_true hlive, rfl⟩

/-- What `poll` is asked for is what the server needs to be woken for. -/
structure Interest (w : World) (listener : Events) (entries : List PollEntry) : Prop where
  /-- A client is in the list once, and its entry leads back to its slot. -/
  listed : ∀ i, w.Live i → ∃ entry,
    entries.filter (·.fd = (w.clients i).fd) = [entry] ∧
    entries.filter (·.slot = i) = [entry] ∧
    entry.events.pollIn = true ∧
    (entry.events.pollOut = true ↔ (w.clients i).output.data ≠ [])
  only : ∀ entry ∈ entries, w.Live entry.slot ∧ entry.fd = (w.clients entry.slot).fd
  listener : (listener.pollIn = true ↔ ∃ i, ¬ w.Live i) ∧ listener.pollOut = false
  /-- No frame is left behind in an input buffer, whole or malformed. -/
  parsed : ∀ i, w.Live i →
    ∃ parsed, parseRequest (w.clients i).input.data = some parsed ∧ parsed.result = .needMore
  /-- If a request waits at the head of the queue, its client's entry asks for `POLLOUT`. -/
  head : ∀ first rest, w.queue = first :: rest → ∃ i, w.Live i ∧
    (w.clients i).fd = first.clientFd ∧ (w.clients i).output.data ≠ [] ∧
    ∃ entry ∈ entries, entry.slot = i ∧ entry.events.pollOut = true

theorem pollEntry_pollOut :
    (pollEntry w.clients i).events.pollOut = true ↔ (w.clients i).output.data ≠ [] := by
  rw [← List.length_pos_iff]
  exact decide_eq_true_iff

theorem interest_buildPollList (hv : w.Valid host) (hwaiting : Waiting w) :
    Interest w (listenerEvents w.clients) (buildPollList w.clients) where
  listed i hi := by
    obtain ⟨hfd, hslot⟩ := filter_buildPollList hv hi
    exact ⟨pollEntry w.clients i, hfd, hslot, rfl, pollEntry_pollOut⟩
  only entry hentry := by
    obtain ⟨hlive, heq⟩ := live_of_mem_buildPollList hentry
    exact ⟨hlive, congrArg PollEntry.fd heq⟩
  listener := by
    refine ⟨?_, rfl⟩
    show hasFreeClientSlot w.clients = true ↔ _
    rw [hasFreeClientSlot_iff]
    simp only [World.Live, not_not]
  parsed i hi := by
    refine ⟨_, parseRequest_eq _, ?_⟩
    rw [(hv.client i hi).parsed]
  head first rest hqueue := by
    obtain ⟨i, hi, hfd, houtput⟩ := hwaiting first rest hqueue
    exact ⟨i, hi, hfd, houtput, _, mem_buildPollList hi, rfl, pollEntry_pollOut.mpr houtput⟩

/-- **The server never sleeps without the interest it needs**, and the turn of the queue that
precedes the call comes to its end, whatever goes wrong in it. -/
theorem poll_interest (hs : (server host).Reachable s) :
    (∀ listener entries interrupted, s.pc = .polling listener entries interrupted →
      Interest s.world listener entries) ∧
    (s.pc = .processQueue → ∀ envs : Nat → Response.Env × Bool,
      ∃ w', processQueueLoop host envs (s.world.queue.length + 1) s.world = some w') := by
  have hv := (valid_of_reachable hs).world
  constructor
  · intro listener entries interrupted hpc
    obtain ⟨hwaiting, rfl, rfl⟩ := pollOk_of_polling hs hpc
    exact interest_buildPollList hv hwaiting
  · intro _ envs
    obtain ⟨w', hloop, -⟩ := processQueueLoop_terminates envs hv (Nat.lt_succ_self _)
    exact ⟨w', hloop⟩

/-! ## The order of the queue -/

/-- Both clients are ready. The first one has sent two requests and the second one has sent one, and
they are read in one round; then the server gets as far as `poll`. -/
def threeRequests : List Event :=
  connectTwo ++ firstClientSends (pwdFrame ++ pwdFrame) ++
  [.read (.data pwdFrame) .fair true, .read .wouldBlock .fair true, .close true, .tick] ++
  [.tick, .process .fair true, .process .fair true, .tick]

/-- The server is in `poll`. -/
def Pc.isPolling : Pc → Bool
  | .polling _ _ _ => true
  | _ => false

theorem isPolling_iff {pc : Pc} : pc.isPolling = true ↔
    ∃ listener entries interrupted, pc = .polling listener entries interrupted := by
  cases pc <;> simp [Pc.isPolling]

/-- The server sleeps with two requests in its queue, and is woken when it can send. -/
theorem poll_interest_run : ∃ s, (server plainHost).Reachable s ∧ s.world.queue.length = 2 ∧
    ∃ listener entries interrupted, s.pc = .polling listener entries interrupted ∧
      Interest s.world listener entries := by
  obtain ⟨s, hs, hp⟩ := server_reaches plainHost threeRequests
    (fun s => s.pc.isPolling && decide (s.world.queue.length = 2)) (by decide +kernel)
  simp only [Bool.and_eq_true, decide_eq_true_eq] at hp
  obtain ⟨listener, entries, interrupted, hpc⟩ := isPolling_iff.mp hp.1
  exact ⟨s, hs, hp.2, listener, entries, interrupted, hpc,
    (poll_interest hs).1 listener entries interrupted hpc⟩

/-- **A request waits for its own client or for the head of the queue.** When the server sleeps, the
client of a queued request has not been sent its last response yet, or the request is behind one of
another client that has not. -/
theorem head_of_line (hs : (server host).Reachable s) {listener : Events}
    {entries : List PollEntry} {interrupted : Bool}
    (hpc : s.pc = .polling listener entries interrupted) :
    ∀ entry ∈ s.world.queue, ∃ i, s.world.Live i ∧ (s.world.clients i).fd = entry.clientFd ∧
      ((s.world.clients i).output.data ≠ [] ∨
        ∃ first rest j, s.world.queue = first :: rest ∧ entry ∈ rest ∧ j ≠ i ∧ s.world.Live j ∧
          (s.world.clients j).fd = first.clientFd ∧ (s.world.clients j).output.data ≠ []) := by
  intro entry hentry
  have hv := (valid_of_reachable hs).world
  obtain ⟨hwaiting, -, -⟩ := pollOk_of_polling hs hpc
  obtain ⟨i, hi, hfd⟩ := hv.owned entry hentry
  refine ⟨i, hi, hfd, ?_⟩
  by_cases hempty : (s.world.clients i).output.data = []
  · right
    cases hqueue : s.world.queue with
    | nil => rw [hqueue] at hentry; cases hentry
    | cons first rest =>
        obtain ⟨j, hj, hfdj, houtput⟩ := hwaiting first rest hqueue
        -- the client at the head is another one, since its output is not empty
        have hne : j ≠ i := by
          rintro rfl
          exact houtput hempty
        refine ⟨first, rest, j, rfl, ?_, hne, hj, hfdj, houtput⟩
        rw [hqueue] at hentry
        apply (List.mem_cons.mp hentry).resolve_left
        rintro rfl
        exact hne (hv.fd_inj j i hj hi (hfdj.trans hfd.symm))
  · exact .inl hempty

/-- In a run with two clients, the second one has been sent everything and waits for the first one,
which has not. -/
theorem head_of_line_run : ∃ s, (server plainHost).Reachable s ∧ s.pc.isPolling = true ∧
    s.world.Live slot1 ∧ (s.world.clients slot1).output.data = [] ∧
    ∃ first rest j, s.world.queue = first :: rest ∧
      (∃ entry ∈ rest, (s.world.clients slot1).fd = entry.clientFd) ∧ j ≠ slot1 ∧ s.world.Live j ∧
      (s.world.clients j).fd = first.clientFd ∧ (s.world.clients j).output.data ≠ [] := by
  obtain ⟨s, hs, hp⟩ := server_reaches plainHost threeRequests
    (fun s => s.pc.isPolling && decide (s.world.Live slot1) &&
      decide ((s.world.clients slot1).output.data = []) &&
      s.world.queue.any fun entry => decide ((s.world.clients slot1).fd = entry.clientFd))
    (by decide +kernel)
  simp only [Bool.and_eq_true, decide_eq_true_eq, List.any_eq_true] at hp
  obtain ⟨⟨⟨hpolling, hlive⟩, hempty⟩, entry, hentry, hfd⟩ := hp
  obtain ⟨listener, entries, interrupted, hpc⟩ := isPolling_iff.mp hpolling
  obtain ⟨i, hi, hfdi, hwaits⟩ := head_of_line hs hpc entry hentry
  obtain rfl : slot1 = i :=
    (valid_of_reachable hs).world.fd_inj slot1 i hlive hi (hfd.trans hfdi.symm)
  obtain ⟨first, rest, j, hqueue, hbehind, hj⟩ := hwaits.resolve_left (not_not.mpr hempty)
  exact ⟨s, hs, hpolling, hlive, hempty, first, rest, j, hqueue, ⟨entry, hbehind, hfd⟩, hj⟩

/-- **A client waits behind another client's response.** The server sleeps; the second client's only
request is in the queue, and nothing is left to be sent to it. What it waits for is that the first
client, which has not been sent its response, makes room for the response to its second request. -/
theorem held_back : ∃ s, (server plainHost).Reachable s ∧ s.pc.isPolling = true ∧
    ∃ entry ∈ s.world.queue, s.world.Live slot1 ∧
      (s.world.clients slot1).fd = entry.clientFd ∧ (s.world.clients slot1).output.data = [] ∧
      s.world.Live slot0 ∧ (s.world.clients slot0).output.data ≠ [] := by
  obtain ⟨s, hs, hp⟩ := server_reaches plainHost threeRequests
    (fun s => s.pc.isPolling && decide (s.world.Live slot1) &&
      s.world.queue.any (fun entry => decide ((s.world.clients slot1).fd = entry.clientFd)) &&
      decide ((s.world.clients slot1).output.data = []) &&
      decide (s.world.Live slot0) && decide ((s.world.clients slot0).output.data ≠ []))
    (by decide +kernel)
  simp only [Bool.and_eq_true, decide_eq_true_eq, List.any_eq_true] at hp
  obtain ⟨⟨⟨⟨⟨hpolling, hlive⟩, entry, hentry, hfd⟩, hempty⟩, hlive₀⟩, houtput⟩ := hp
  exact ⟨s, hs, hpolling, entry, hentry, hlive, hfd, hempty, hlive₀, houtput⟩

end WireCommand.Uds
