import WireCommand.Uds.Server

/-!
# Clients of the poll server and each other's traffic

The request queue is shared, and a client whose request finds it full is disconnected. So the one
thing that clients can do to another client is to fill the queue: `request_kept_iff` says that a
well-behaved client's request is taken exactly when there is room for it, and `flooded_client` is
a run in which one client queues 256 requests and another one is disconnected for its first.
-/

namespace WireCommand.Uds

open Foundation Foundation.Framing Protocol

variable {host : Host} {w w' : World} {i : Slot} {s s' : State}

/-- Parsing one whole request: it is queued, if there is room. -/
theorem enqueueCompleteRequests_frame {fd : Int} {conn : Nat} {input input' : Buffer}
    {queue queue' : RequestQueue} {result : Except Errno Unit} {r : Request} (hfd : 0 ≤ fd)
    (hlen : queue.length ≤ maxQueuedRequests) (hdata : input.data = r.frame)
    (h : enqueueCompleteRequests fd conn ReadEnv.fair.mallocOk input queue = (result, input', queue')) :
    (result = .ok () ∧ queue.length < maxQueuedRequests ∧ queue' = queue ++ [queued fd conn r]) ∨
    (result = .error .enobufs ∧ queue.length = maxQueuedRequests) := by
  obtain ⟨parsed, hsplit, -, hqueue, hlen', hstop⟩ := enqueueCompleteRequests_spec hfd hlen h
  rw [hdata] at hsplit
  have hframe : requestVerdict r.frame = .complete r r.frame.length := by
    simpa using requestVerdict_frame r []
  have hnil : requestVerdict [] = .needMore := rfl
  rcases requestCodec.encode_split hsplit with ⟨rfl, hrest⟩ | ⟨rfl, hrest⟩
  · -- nothing was parsed, though a request is there: the queue was full
    have hrest : input'.data = r.frame := hrest
    simp only [List.map_nil, List.append_nil] at hqueue
    cases result with
    | ok _ => rw [EnqueueStopped, hrest, hframe] at hstop; cases hstop
    | error e =>
        rcases hstop with ⟨-, hinvalid⟩ | ⟨rfl, hfull, -⟩ | ⟨-, hmalloc⟩
        · rw [hrest, hframe] at hinvalid; cases hinvalid
        · exact .inr ⟨rfl, hqueue ▸ hfull⟩
        · cases hmalloc
  · -- the request was parsed, and nothing is left to stop at
    simp only [List.map_cons, List.map_nil] at hqueue
    cases result with
    | ok _ =>
        refine .inl ⟨rfl, ?_, hqueue⟩
        rw [hqueue, List.length_append, List.length_singleton] at hlen'
        omega
    | error e =>
        rcases hstop with ⟨-, hinvalid⟩ | ⟨-, -, hcomplete⟩ | ⟨-, hmalloc⟩
        · rw [hrest, hnil] at hinvalid; cases hinvalid
        · rw [hrest, hnil] at hcomplete; cases hcomplete
        · cases hmalloc

/-- Reading the bytes that complete one request. -/
theorem readClient_frame {bytes : Bytes} {r : Request} {iteration : Iteration}
    (hv : w.Valid host) (hi : w.Live i) (hframe : (w.clients i).input.data ++ bytes = r.frame)
    (h : readClient w i (.data bytes) .fair = some (iteration, w')) :
    (iteration = .again ∧ w.queue.length < maxQueuedRequests ∧
      w'.queue = w.queue ++ [queued (w.clients i).fd (w.clients i).conn r]) ∨
    (iteration = .failed ∧ w.queue.length = maxQueuedRequests) := by
  have hok := hv.client i hi
  cases readClient_read hv hi h with
  | lost halloc => cases halloc
  | parsed hdata _ _ _ henqueue _ =>
      rcases enqueueCompleteRequests_frame hok.fd_nonneg hv.queue_le (hdata.trans hframe) henqueue
        with ⟨rfl, hroom, hqueue⟩ | ⟨rfl, hfull⟩
      · exact .inl ⟨rfl, hroom, hqueue⟩
      · exact .inr ⟨rfl, hfull⟩

/-- **A client's request is taken exactly when the shared queue has room.** The server reads the
bytes that complete one request of a client, and every allocation succeeds: the client is kept, with
the request queued, if fewer than 256 requests are waiting, and removed if there are 256. -/
theorem request_kept_iff (hs : (server host).Reachable s) {entry : PollEntry} {listener : Revents}
    {todo : List PollEntry} {bytes : Bytes} {released : Bool} {r : Request}
    (hpc : s.pc = .visiting .read entry listener todo)
    (hframe : (s.world.clients entry.slot).input.data ++ bytes = r.frame)
    (hstep : step host s (.read (.data bytes) .fair released) = some s') :
    (s'.world.Live entry.slot ↔ s.world.queue.length < maxQueuedRequests) ∧
    (s'.world.Live entry.slot → s'.world.queue = s.world.queue ++
      [queued (s.world.clients entry.slot).fd (s.world.clients entry.slot).conn r]) := by
  obtain ⟨hw, hpcok⟩ := valid_of_reachable hs
  rw [hpc] at hpcok
  have hlive : s.world.Live entry.slot := hpcok.1.1
  simp only [step, hpc] at hstep
  obtain ⟨⟨iteration, w'⟩, hread, rfl⟩ := Option.map_eq_some_iff.mp hstep
  have ht := (readClient_spec hw hlive hread).1
  rcases readClient_frame hw hlive hframe hread with ⟨rfl, hroom, hqueue⟩ | ⟨rfl, hfull⟩
  · have hkept : w'.Live entry.slot := ht.live.mpr hlive
    exact ⟨⟨fun _ => hroom, fun _ => hkept⟩, fun _ => hqueue⟩
  · have hremoved : ¬ (removeClient w' entry.slot released).Live entry.slot := by
      rw [removeClient_live]
      exact fun h => h.2 rfl
    refine ⟨⟨fun h => absurd h hremoved, fun h => ?_⟩, fun h => absurd h hremoved⟩
    omega

/-! ## A client that floods the queue -/

/-- The second slot. -/
def slot1 : Slot := ⟨1, by decide⟩

/-- Two clients connect, with descriptors 5 and 6. -/
def connectTwo : List Event :=
  idleRound ++ [.poll (.ready .readable []), .tick, .accept (.accepted 5) true true,
    .accept (.accepted 6) true true, .accept .wouldBlock true true]

/-- Both clients are ready, and the first one has sent `requests`. -/
def firstClientSends (requests : Bytes) : List Event :=
  idleRound ++ [.poll (.ready .none [.readable, .readable]), .tick,
    .read (.data requests) .fair true, .read .wouldBlock .fair true, .close true, .tick]

/-- The slot the server is about to read from. -/
def Pc.readSlot : Pc → Option Slot
  | .visiting .read entry _ _ => some entry.slot
  | _ => none

theorem readSlot_eq_some {pc : Pc} (h : pc.readSlot = some i) :
    ∃ entry listener todo, pc = .visiting .read entry listener todo ∧ entry.slot = i := by
  unfold Pc.readSlot at h
  split at h
  · cases h; exact ⟨_, _, _, rfl, rfl⟩
  · cases h

/-- A client whose request finds room. -/
theorem request_kept_run : ∃ s s', (server plainHost).Reachable s ∧
    step plainHost s (.read (.data pwdFrame) .fair true) = some s' ∧ s'.world.Live slot1 := by
  obtain ⟨s, hs, hp⟩ := server_reaches plainHost
    (connectTwo ++ firstClientSends pwdFrame)
    (fun s => decide (s.pc.readSlot = some slot1) &&
      decide ((s.world.clients slot1).input.data ++ pwdFrame = pwdRequest.frame) &&
      decide (s.world.queue.length < maxQueuedRequests) &&
      (step plainHost s (.read (.data pwdFrame) .fair true)).isSome) (by decide +kernel)
  simp only [Bool.and_eq_true, decide_eq_true_eq] at hp
  obtain ⟨⟨⟨hpc, hframe⟩, hroom⟩, hsome⟩ := hp
  obtain ⟨entry, listener, todo, hpc, hslot⟩ := readSlot_eq_some hpc
  obtain ⟨s', hstep⟩ := Option.isSome_iff_exists.mp hsome
  rw [← hslot] at hframe ⊢
  exact ⟨s, s', hs, hstep, (request_kept_iff hs hpc hframe hstep).1.mpr hroom⟩

/-- **One client's traffic disconnects another client.** In one round the first client has queued
256 requests. The second client has nothing queued, nothing to be sent and an empty input buffer;
its first request, whole and valid, is read without any error, and the client is removed. -/
theorem flooded_client : ∃ s s', (server plainHost).Reachable s ∧
    s.world.Live slot1 ∧
    (s.world.clients slot1).input.data = [] ∧
    (s.world.clients slot1).output.data = [] ∧
    Queue.ofClient s.world.queue (s.world.clients slot1).fd = [] ∧
    s.pc.readSlot = some slot1 ∧
    step plainHost s (.read (.data pwdRequest.frame) .fair true) = some s' ∧
    ¬ s'.world.Live slot1 := by
  obtain ⟨s, hs, hp⟩ := server_reaches plainHost
    (connectTwo ++ firstClientSends (List.replicate 256 pwdFrame).flatten)
    (fun s => decide (s.world.Live slot1) &&
      decide ((s.world.clients slot1).input.data = []) &&
      decide ((s.world.clients slot1).output.data = []) &&
      decide (Queue.ofClient s.world.queue (s.world.clients slot1).fd = []) &&
      decide (s.pc.readSlot = some slot1) &&
      (step plainHost s (.read (.data pwdRequest.frame) .fair true)).any
        fun s' : State => !decide (s'.world.Live slot1)) (by decide +kernel)
  simp only [Bool.and_eq_true, decide_eq_true_eq] at hp
  obtain ⟨⟨⟨⟨⟨hlive, hinput⟩, houtput⟩, hqueue⟩, hpc⟩, hremoved⟩ := hp
  cases hstep : step plainHost s (.read (.data pwdRequest.frame) .fair true) with
  | none => rw [hstep] at hremoved; cases hremoved
  | some s' =>
      rw [hstep, Option.any_some, Bool.not_eq_true', decide_eq_false_iff_not] at hremoved
      exact ⟨s, s', hs, hlive, hinput, houtput, hqueue, hpc, hstep, hremoved⟩

end WireCommand.Uds
