import WireCommand.Foundation.Play
import WireCommand.Uds.Functions

/-!
# The end of a read

A whole call of `wc_uds_read_client`, for a peer whose data never runs out. The loop has no limit of
its own and is left at `EAGAIN`, which such a peer never lets happen. It ends all the same: a read
fills the input buffer, the buffer is emptied only into the queue, frame by frame, and nothing takes
a request out of the queue during the call. `World.space` is what the two together can still take,
and every read uses up as much of it as it appends (`readClient_space`).
-/

namespace WireCommand.Uds

open Foundation Foundation.Framing Protocol

variable {w w' : World} {i : Slot}

/-! ## The call -/

/-- A call of `wc_uds_read_client`: the world, how its last iteration ended, and the number of bytes
it has appended to the input buffer. -/
structure ReadCall where
  world : World
  last : Iteration
  appended : Nat

/-- What the environment chooses in an iteration. -/
structure ReadEvent where
  outcome : ReadOutcome
  env : ReadEnv
  deriving DecidableEq

/-- The call when it enters its loop. -/
def ReadCall.start (w : World) : ReadCall := ⟨w, .again, 0⟩

/-- The number of bytes that `wc_buffer_append` adds in an iteration. -/
def ReadEvent.appends (e : ReadEvent) (input : Buffer) : Nat :=
  match e.outcome with
  | .data bytes =>
      match input.append bytes e.env.reallocOk with
      | .ok _ => bytes.length
      | .error _ => 0
  | _ => 0

/-- One iteration. -/
def ReadCall.step (i : Slot) (call : ReadCall) (e : ReadEvent) : Option ReadCall :=
  match call.last with
  | .again =>
      (readClient call.world i e.outcome e.env).map fun (iteration, world) =>
        ⟨world, iteration, call.appended + e.appends (call.world.clients i).input⟩
  | _ => none

/-- `wc_uds_read_client`, called for the client of a slot. -/
def readCall (w : World) (i : Slot) : StepSystem ReadCall ReadEvent :=
  .ofFn (fun call => call = .start w) (ReadCall.step i)

/-! ## What is left -/

/-- The bytes that the queue and the input buffer can still take: the frames of the requests the
queue has room for, and the rest of the buffer. -/
def World.space (w : World) (i : Slot) : Nat :=
  (maxQueuedRequests - w.queue.length) * inputLimit + (inputLimit - (w.clients i).input.data.length)

/-- A frame is no longer than the input limit. -/
theorem encodeAll_length_le (parsed : List Request) :
    (requestCodec.encodeAll parsed).length ≤ parsed.length * inputLimit := by
  induction parsed with
  | nil => exact Nat.zero_le _
  | cons r parsed ih =>
      have hframe : (requestCodec.encode r).length ≤ inputLimit := by
        have hlt := r.argument_length_lt
        show r.frame.length ≤ inputLimit
        rw [Request.frame_length, inputLimit, uint16Max]
        omega
      rw [Codec.encodeAll_cons, List.length_append, List.length_cons, Nat.succ_mul]
      omega

/-- Without a descriptor no request is queued. -/
theorem enqueueCompleteRequests_of_neg {fd : Int} (hfd : fd < 0) (conn : Nat)
    (mallocOk : Nat → Bool) (input : Buffer) (queue : RequestQueue) :
    (enqueueCompleteRequests fd conn mallocOk input queue).2 = (input, queue) := by
  unfold enqueueCompleteRequests
  split
  · rfl
  · rfl
  · next request consumed _ =>
      split
      · rfl
      · have henqueue : Queue.enqueue queue fd request.type.code request.argument conn
            (mallocOk queue.length) = .error .einval := by
          simp only [Queue.enqueue, RequestType.ofCode_code, hfd, if_true]
        rw [henqueue]

/-- What leaves the input buffer is in the queue. -/
theorem enqueueCompleteRequests_moves {fd : Int} {conn : Nat} {mallocOk : Nat → Bool}
    {input input' : Buffer} {queue queue' : RequestQueue} {result : Except Errno Unit}
    (hlen : queue.length ≤ maxQueuedRequests)
    (h : enqueueCompleteRequests fd conn mallocOk input queue = (result, input', queue')) :
    input'.maxSize = input.maxSize ∧ queue'.length ≤ maxQueuedRequests ∧
      input.data.length ≤
        (queue'.length - queue.length) * inputLimit + input'.data.length ∧
      queue.length ≤ queue'.length := by
  by_cases hfd : 0 ≤ fd
  · obtain ⟨parsed, hsplit, hmax, rfl, hlen', -⟩ := enqueueCompleteRequests_spec hfd hlen h
    have hframes := encodeAll_length_le parsed
    refine ⟨hmax, hlen', ?_, ?_⟩
    · rw [hsplit, List.length_append, List.length_append, List.length_map,
        Nat.add_sub_cancel_left]
      omega
    · rw [List.length_append]
      omega
  · have hsame := enqueueCompleteRequests_of_neg (Int.lt_of_not_ge hfd) conn mallocOk input queue
    rw [h] at hsame
    cases hsame
    exact ⟨rfl, hlen, by omega, Nat.le_refl _⟩

/-- What `wc_uds_read_client` finds at the top of its loop. -/
structure ReadyToRead (w : World) (i : Slot) : Prop where
  limit : (w.clients i).input.maxSize = inputLimit
  queue_le : w.queue.length ≤ maxQueuedRequests

/-- What is appended fits into the buffer. -/
theorem ReadEvent.appends_le (e : ReadEvent) (input : Buffer) :
    input.data.length + e.appends input ≤ input.maxSize := by
  have hle := input.length_le_maxSize
  unfold appends
  split
  · split
    · next input' happend =>
        obtain ⟨hdata, hmax, -⟩ := Buffer.append_ok happend
        have hle' := input'.length_le_maxSize
        rw [hdata, List.length_append] at hle'
        omega
    · omega
  · omega

/-- An iteration that appends nothing. -/
theorem ReadyToRead.still (hready : ReadyToRead w i) {n : Nat} (hclients : w'.clients = w.clients)
    (hqueue : w'.queue = w.queue) (hn : n = 0) :
    ReadyToRead w' i ∧ w'.space i + n ≤ w.space i := by
  have hspace : w'.space i = w.space i := by
    unfold World.space
    rw [hclients, hqueue]
  refine ⟨⟨?_, ?_⟩, by omega⟩
  · rw [hclients, hready.limit]
  · rw [hqueue]
    exact hready.queue_le

/-- An iteration that appends something. The queue has grown by as many requests as frames have left
the buffer. -/
theorem ReadyToRead.afterRead (hready : ReadyToRead w i) {bytes : Bytes} {appended input : Buffer}
    {queue : RequestQueue} {mallocOk : Nat → Bool} {result : Except Errno Unit}
    (hdata : appended.data = (w.clients i).input.data ++ bytes)
    (hmax : appended.maxSize = (w.clients i).input.maxSize)
    (henqueue : enqueueCompleteRequests (w.clients i).fd (w.clients i).conn mallocOk appended
      w.queue = (result, input, queue)) :
    ReadyToRead (w.afterRead i bytes input queue) i ∧
      (w.afterRead i bytes input queue).space i + bytes.length ≤ w.space i := by
  obtain ⟨hmax', hqueue, hmoved, hgrown⟩ := enqueueCompleteRequests_moves hready.queue_le henqueue
  have hlimit : input.maxSize = inputLimit := hmax'.trans (hmax.trans hready.limit)
  have hinput : ((w.afterRead i bytes input queue).clients i).input = input := by
    simp [World.afterRead, World.setClient]
  refine ⟨⟨?_, hqueue⟩, ?_⟩
  · rw [hinput, hlimit]
  · have hle : input.data.length ≤ inputLimit := hlimit ▸ input.length_le_maxSize
    have hle' : appended.data.length ≤ inputLimit :=
      hready.limit ▸ hmax ▸ appended.length_le_maxSize
    have hroom : maxQueuedRequests - w.queue.length =
        (maxQueuedRequests - queue.length) + (queue.length - w.queue.length) := by omega
    unfold World.space
    rw [hinput, hroom, Nat.add_mul]
    rw [hdata, List.length_append] at hmoved hle'
    show (maxQueuedRequests - queue.length) * inputLimit + _ + _ ≤ _
    omega

/-- **An iteration uses up what it appends**, and goes on only when that is something or the read
was interrupted. -/
theorem readClient_space {e : ReadEvent} {iteration : Iteration} (hready : ReadyToRead w i)
    (h : readClient w i e.outcome e.env = some (iteration, w')) :
    (ReadyToRead w' i ∧ w'.space i + e.appends (w.clients i).input ≤ w.space i) ∧
      (iteration = .again → e.outcome = .interrupted ∨ 0 < e.appends (w.clients i).input) := by
  have hfits := e.appends_le (w.clients i).input
  unfold readClient at h
  simp only at h
  split at h
  · next hfull =>
      -- the buffer is full, and nothing is read
      cases h
      rw [nextReadSize, Buffer.nextReadSize_eq] at hfull
      have hnone : e.appends (w.clients i).input = 0 := by
        simp only [readSize] at hfull
        omega
      exact ⟨hready.still rfl rfl hnone, fun hagain => by cases hagain⟩
  · obtain ⟨outcome, env⟩ := e
    cases outcome with
    | eof => cases h; exact ⟨hready.still rfl rfl rfl, fun hagain => by cases hagain⟩
    | interrupted => cases h; exact ⟨hready.still rfl rfl rfl, fun _ => .inl rfl⟩
    | wouldBlock => cases h; exact ⟨hready.still rfl rfl rfl, fun hagain => by cases hagain⟩
    | failed => cases h; exact ⟨hready.still rfl rfl rfl, fun hagain => by cases hagain⟩
    | data bytes =>
        simp only at h
        split at h
        · next hbytes =>
            split at h
            · next errno happend =>
                cases h
                have hnone : ReadEvent.appends ⟨.data bytes, env⟩ (w.clients i).input = 0 := by
                  simp only [ReadEvent.appends, happend]
                exact ⟨hready.still rfl rfl hnone, fun hagain => by cases hagain⟩
            · next appended happend =>
                obtain ⟨hdata, hmax, -⟩ := Buffer.append_ok happend
                have hsome : ReadEvent.appends ⟨.data bytes, env⟩ (w.clients i).input =
                    bytes.length := by
                  simp only [ReadEvent.appends, happend]
                obtain ⟨result, input, queue, henqueue⟩ : ∃ result input queue,
                    enqueueCompleteRequests (w.clients i).fd (w.clients i).conn env.mallocOk
                      appended w.queue = (result, input, queue) := ⟨_, _, _, rfl⟩
                have hworld : w' = w.afterRead i bytes input queue := by
                  simp only [World.noteReceived, henqueue] at h
                  cases result <;> (cases h; rfl)
                rw [hsome, hworld]
                exact ⟨hready.afterRead hdata hmax henqueue, fun _ => .inr hbytes.1⟩
        · cases h

/-! ## The whole call -/

/-- **What the call has appended and what is left** are together no more than was left at first. -/
structure ReadCall.Ok (w : World) (i : Slot) (call : ReadCall) : Prop where
  ready : ReadyToRead call.world i
  spent : call.world.space i + call.appended ≤ w.space i

/-- What is still to be done. -/
def ReadCall.left (i : Slot) (call : ReadCall) : Nat :=
  match call.last with
  | .again => call.world.space i + 1
  | _ => 0

/-- The call was interrupted in an iteration. -/
def ReadEvent.idle (e : ReadEvent) : Bool := e.outcome = .interrupted

/-- A step is an iteration of the loop. -/
theorem ReadCall.step_readClient {call call' : ReadCall} {e : ReadEvent}
    (h : call.step i e = some call') :
    call.last = .again ∧ readClient call.world i e.outcome e.env = some (call'.last, call'.world) ∧
      call'.appended = call.appended + e.appends (call.world.clients i).input := by
  unfold step at h
  split at h
  · next hlast =>
      obtain ⟨⟨iteration, world⟩, hread, rfl⟩ := Option.map_eq_some_iff.mp h
      exact ⟨hlast, hread, rfl⟩
  · cases h

theorem readCall_inductive (hready : ReadyToRead w i) :
    (readCall w i).Inductive (ReadCall.Ok w i) where
  init := by
    rintro call rfl
    refine ⟨hready, ?_⟩
    show w.space i + 0 ≤ w.space i
    omega
  step := by
    intro call e call' hok hstep
    obtain ⟨-, hread, happended⟩ := ReadCall.step_readClient hstep
    obtain ⟨⟨hready', hspace⟩, -⟩ := readClient_space hok.ready hread
    have hspent := hok.spent
    exact ⟨hready', by omega⟩

/-- Every iteration comes closer to the end, unless the read was interrupted. -/
theorem ReadCall.left_lt {call call' : ReadCall} {e : ReadEvent} (hok : call.Ok w i)
    (h : call.step i e = some call') :
    call'.left i + 1 ≤ call.left i + if e.idle then 1 else 0 := by
  obtain ⟨hlast, hread, -⟩ := ReadCall.step_readClient h
  obtain ⟨⟨-, hspace⟩, hagain⟩ := readClient_space hok.ready hread
  have hleft : call.left i = call.world.space i + 1 := by
    unfold left
    rw [hlast]
  rw [hleft]
  cases hlast' : call'.last with
  | done | failed =>
      simp only [left, hlast']
      omega
  | again =>
      simp only [left, hlast']
      rcases hagain hlast' with hinterrupted | hpos
      · simp only [ReadEvent.idle, hinterrupted, decide_true, if_true]
        omega
      · omega

/-- A peer whose data never runs out: whenever `read` is called it delivers some bytes, whichever
they are, or is interrupted. Allocations may fail. -/
def Supplies (i : Slot) (env : Nat → ReadCall → ReadEvent) : Prop :=
  ∀ n call, (env n call).outcome = .interrupted ∨
    ∃ bytes, (env n call).outcome = .data bytes ∧ 0 < bytes.length ∧
      (nextReadSize (call.world.clients i).input ≠ 0 →
        bytes.length ≤ nextReadSize (call.world.clients i).input)

/-- A peer that supplies data lets the loop go on. -/
theorem Supplies.answers {env : Nat → ReadCall → ReadEvent} (h : Supplies i env) (n : Nat)
    {call : ReadCall} (hlast : call.last = .again) : ∃ call', call.step i (env n call) = some call' := by
  have hread : ∃ result,
      readClient call.world i (env n call).outcome (env n call).env = some result := by
    unfold readClient
    by_cases hfull : nextReadSize (call.world.clients i).input = 0
    · exact ⟨_, if_pos hfull⟩
    · simp only [hfull, if_false]
      rcases h n call with houtcome | ⟨bytes, houtcome, hpos, hle⟩
      · rw [houtcome]
        exact ⟨_, rfl⟩
      · rw [houtcome]
        simp only [hpos, hle hfull, and_self, if_true]
        split
        · exact ⟨_, rfl⟩
        · split <;> exact ⟨_, rfl⟩
  obtain ⟨result, hread⟩ := hread
  unfold ReadCall.step
  rw [hlast]
  simp only [hread, Option.map_some]
  exact ⟨_, rfl⟩

/-- **A peer cannot hold the server.** From any state of the loop, with any number of requests in
the queue, a call of `wc_uds_read_client` returns although the data never runs out, and the bytes it
has appended to the input buffer by then are at most what the free places of the queue and the
buffer itself can take. -/
theorem readClient_returns (w : World) (i : Slot)
    (hlimit : (w.clients i).input.maxSize = inputLimit) (hqueue : w.queue.length ≤ 256)
    (env : Nat → ReadCall → ReadEvent) (hsupplies : Supplies i env)
    (hinterrupted : ∃ bound, ∀ n call, bound ≤ n → (env n call).outcome ≠ .interrupted) :
    ∃ n call, StepSystem.play (ReadCall.step i) env (.start w) n = some call ∧
      call.last ≠ .again ∧ call.appended ≤ (257 - w.queue.length) * 65535 := by
  have hready : ReadyToRead w i := ⟨hlimit, hqueue⟩
  have hinductive := readCall_inductive hready
  obtain ⟨bound, hbound⟩ := hinterrupted
  have hidle : ∀ n call, bound ≤ n → (env n call).idle = false := by
    intro n call hn
    exact decide_eq_false (hbound n call hn)
  have hstart : (ReadCall.start w).Ok w i := hinductive.init _ rfl
  obtain ⟨n, call, hplay, hreturned⟩ := hinductive.returns (fun call => decide (call.last ≠ .again))
    (fun call e call' => ReadCall.left_lt) hidle
    (fun n call _ hrunning => hsupplies.answers n (by simpa using hrunning)) hstart
  obtain ⟨es, hrun, -⟩ := StepSystem.run_of_play (fun call => call = .start w) hidle hplay
  have hspent := (hinductive.run hstart hrun).spent
  refine ⟨n, call, hplay, of_decide_eq_true hreturned, ?_⟩
  have hspace : w.space i ≤ (257 - w.queue.length) * 65535 := by
    unfold World.space
    simp only [maxQueuedRequests, inputLimit, uint16Max]
    omega
  omega

/-- Zero bytes, one at a time, for the first client of a server. -/
theorem readClient_returns_zeros :
    let i : Slot := ⟨0, by decide⟩
    let w := (World.start ∅).setClient i (.connected 5 0)
    ∃ n call, StepSystem.play (ReadCall.step i) (fun _ _ => ⟨.data [0], .fair⟩) (.start w) n =
      some call ∧ call.last ≠ .again ∧ call.appended ≤ 257 * 65535 := by
  intro i w
  have hinput : (w.clients i).input.maxSize = inputLimit := by
    simp [w, World.setClient, Client.connected]
  exact readClient_returns w i hinput (Nat.zero_le _) _
    (fun n call => .inr ⟨[0], rfl, Nat.one_pos, Nat.one_le_iff_ne_zero.mpr⟩) ⟨0, fun _ _ _ h => by cases h⟩

end WireCommand.Uds
