import WireCommand.Uds.ReadLoop

/-!
# Frames and the cuts of the stream

A client's bytes arrive in pieces, and `wc_uds_enqueue_complete_requests` runs after each of them.
`feed` is what happens to a client's input buffer and to the queue when a stream arrives in given
pieces and every allocation succeeds, which is what a call of `wc_uds_read_client` does that reads
them (`readCall_feed`). What comes of it depends on the stream alone (`fragmentation_independent`): on
the frames at its front, on what follows them, and on the room in the queue.

The induction is over the pieces, with the bytes that are still in the input buffer in front of
them: between two pieces the buffer holds the beginning of a frame, and the frames of the whole are
those taken from the first piece followed by those of the rest.
-/

namespace WireCommand.Uds

open Foundation Foundation.Framing Protocol

variable {fd : Int} {conn : Nat}

/-! ## One piece -/

/-- What comes of a stream with `requests` at its front and `rest` behind them, when the queue has
room for `room` requests. -/
def extraction (requests : List Request) (rest : Bytes) (room : Nat) : Except Errno Unit :=
  if requests.length > room then .error .enobufs
  else if requestVerdict rest = .invalid then .error .eproto
  else .ok ()

/-- The requests that find room are queued. -/
def extracted (fd : Int) (conn : Nat) (requests : List Request) (room : Nat) : RequestQueue :=
  (requests.take room).map (queued fd conn)

/-- The room in the queue. -/
def room (queue : RequestQueue) : Nat := maxQueuedRequests - queue.length

/-- `wc_uds_enqueue_complete_requests` on an input with a request at its front, when every
allocation succeeds. -/
theorem enqueueCompleteRequests_cons (conn : Nat) {input : Buffer} {queue : RequestQueue}
    {r : Request} {more : Bytes} (hfd : 0 ≤ fd) (hdata : input.data = r.frame ++ more)
    (hroom : queue.length < maxQueuedRequests) :
    ∃ input₁, input₁.data = more ∧
      enqueueCompleteRequests fd conn ReadEnv.fair.mallocOk input queue =
        enqueueCompleteRequests fd conn ReadEnv.fair.mallocOk input₁
          (queue ++ [queued fd conn r]) := by
  have hverdict : requestVerdict input.data = .complete r r.frame.length := by
    rw [hdata, requestVerdict_frame]
  obtain ⟨input₁, hconsume⟩ := Buffer.consume_of_le input r.frame.length
    (by rw [hdata, List.length_append]; omega)
  obtain ⟨hdrop, -, -⟩ := Buffer.consume_ok hconsume
  refine ⟨input₁, by rw [hdrop, hdata, List.drop_left], ?_⟩
  rw [enqueueCompleteRequests]
  split
  · next h => rw [hverdict] at h; cases h
  · next h => rw [hverdict] at h; cases h
  · next request consumed h =>
      rw [hverdict] at h
      cases h
      have hmalloc : ReadEnv.fair.mallocOk queue.length = true := rfl
      rw [if_neg (Nat.not_le.mpr hroom), Queue.enqueue_of_valid hfd (argument_fits r),
        if_pos hmalloc]
      simp only
      split
      · next e h => rw [hconsume] at h; cases h
      · next input' h => rw [hconsume] at h; cases h; rfl

/-- **What one call comes to**, from the frames at the front of the input. -/
theorem enqueueCompleteRequests_extraction (conn : Nat) {input : Buffer} (queue : RequestQueue)
    {requests : List Request} {rest : Bytes} (hfd : 0 ≤ fd)
    (hmax : requestCodec.Maximal input.data requests rest) :
    ∃ input', enqueueCompleteRequests fd conn ReadEnv.fair.mallocOk input queue =
        (extraction requests rest (room queue), input',
          queue ++ extracted fd conn requests (room queue)) ∧
      (requests.length ≤ room queue → input'.data = rest) := by
  obtain ⟨hsplit, hdone⟩ := hmax
  induction requests generalizing input queue with
  | nil =>
      have hdata : input.data = rest := hsplit
      subst hdata
      refine ⟨input, ?_, fun _ => rfl⟩
      rw [enqueueCompleteRequests]
      split
      · next h => simp [extraction, extracted, h]
      · next h => simp [extraction, extracted, h]
      · next h => rw [show requestCodec.parse = requestVerdict from rfl, h] at hdone; cases hdone
  | cons r requests ih =>
      rw [requestCodec.encodeAll_cons, requestCodec_encode, List.append_assoc] at hsplit
      by_cases hfull : queue.length < maxQueuedRequests
      · obtain ⟨input₁, hdata₁, hcall⟩ := enqueueCompleteRequests_cons conn hfd hsplit hfull
        have hroom : room queue = room (queue ++ [queued fd conn r]) + 1 := by
          simp only [room, List.length_append, List.length_singleton]
          omega
        obtain ⟨input', hrest, hdata'⟩ := ih (queue ++ [queued fd conn r]) hdata₁
        refine ⟨input', ?_, ?_⟩
        · rw [hcall, hrest, hroom]
          simp [extraction, extracted]
        · intro hlen
          rw [hroom, List.length_cons] at hlen
          exact hdata' (by omega)
      · -- no room: the request stays where it is
        have hroom : room queue = 0 := by
          unfold room
          omega
        have hverdict : requestVerdict input.data = .complete r r.frame.length := by
          rw [hsplit, requestVerdict_frame]
        refine ⟨input, ?_, ?_⟩
        · rw [enqueueCompleteRequests, hroom]
          split
          · next h => rw [hverdict] at h; cases h
          · next h => rw [hverdict] at h; cases h
          · rw [if_pos (Nat.le_of_not_lt hfull)]
            simp [extraction, extracted]
        · intro hlen
          rw [hroom] at hlen
          exact absurd hlen (by simp)

/-! ## All pieces -/

/-- `wc_buffer_append` and `wc_uds_enqueue_complete_requests` on the pieces of a stream, one after
the other, up to the first call that fails; `none` when a piece is not one `wc_uds_read_client`
would read. -/
def feed (fd : Int) (conn : Nat) (input : Buffer) (queue : RequestQueue) :
    List Bytes → Option (Except Errno Unit × Buffer × RequestQueue)
  | [] => some (.ok (), input, queue)
  | chunk :: chunks =>
      if 0 < chunk.length ∧ chunk.length ≤ nextReadSize input then
        match input.append chunk true with
        | .error e => some (.error e, input, queue)
        | .ok input =>
            match enqueueCompleteRequests fd conn ReadEnv.fair.mallocOk input queue with
            | (.error e, input, queue) => some (.error e, input, queue)
            | (.ok (), input, queue) => feed fd conn input queue chunks
      else
        none

/-- An iteration of `wc_uds_read_client` that reads a piece. -/
def readsPiece (chunk : Bytes) : ReadEvent := ⟨.data chunk, .fair⟩

/-- One iteration feeds one piece. -/
theorem readClient_feed {w : World} {i : Slot} {call : ReadCall} {chunk : Bytes} {input : Buffer}
    (hlast : call.last = .again)
    (hchunk : 0 < chunk.length ∧ chunk.length ≤ nextReadSize (call.world.clients i).input)
    (happend : (call.world.clients i).input.append chunk true = .ok input)
    {result : Except Errno Unit} {input' : Buffer} {queue : RequestQueue}
    (hcall : enqueueCompleteRequests (call.world.clients i).fd (call.world.clients i).conn
      ReadEnv.fair.mallocOk input call.world.queue = (result, input', queue)) :
    ∃ call', (readCall w i).step call (readsPiece chunk) call' ∧
      call'.world.clients i = { call.world.clients i with input := input' } ∧
      call'.world.queue = queue ∧ (result = .ok () → call'.last = .again) ∧
      ∀ e, result = .error e → call'.last = .failed := by
  have hsize : nextReadSize (call.world.clients i).input ≠ 0 := by omega
  obtain ⟨iteration, hread, hok, hfails⟩ : ∃ iteration,
      readClient call.world i (.data chunk) .fair =
        some (iteration, call.world.afterRead i chunk input' queue) ∧
      (result = .ok () → iteration = .again) ∧ ∀ e, result = .error e → iteration = .failed := by
    unfold readClient
    simp only [hsize, if_false]
    rw [if_pos hchunk, show ReadEnv.fair.reallocOk = true from rfl, happend]
    simp only [World.noteReceived, hcall]
    cases result with
    | error e => exact ⟨_, rfl, nofun, fun _ _ => rfl⟩
    | ok => exact ⟨_, rfl, fun _ => rfl, nofun⟩
  refine ⟨⟨call.world.afterRead i chunk input' queue, iteration,
    call.appended + (readsPiece chunk).appends (call.world.clients i).input⟩, ?_, ?_, rfl, hok, hfails⟩
  · show call.step i (readsPiece chunk) = some _
    rw [ReadCall.step, hlast, readsPiece, hread]
    rfl
  · exact Function.update_self ..

/-- **A call of `wc_uds_read_client` feeds the pieces that it reads**, up to the first that fails. -/
theorem readCall_feed {w : World} {i : Slot} {chunks : List Bytes} {call : ReadCall}
    {result : Except Errno Unit} {input' : Buffer} {queue' : RequestQueue}
    (hlast : call.last = .again)
    (hfeed : feed (call.world.clients i).fd (call.world.clients i).conn
      (call.world.clients i).input call.world.queue chunks = some (result, input', queue')) :
    ∃ pieces call', pieces <+: chunks ∧
      (readCall w i).Run call (pieces.map readsPiece) call' ∧
      (call'.world.clients i).input = input' ∧ call'.world.queue = queue' ∧
      (result = .ok () → pieces = chunks ∧ call'.last = .again) ∧
      ∀ e, result = .error e → call'.last = .failed := by
  induction chunks generalizing call with
  | nil =>
      cases hfeed
      exact ⟨[], call, List.nil_prefix, .nil, rfl, rfl, fun _ => ⟨rfl, hlast⟩, nofun⟩
  | cons chunk chunks ih =>
      unfold feed at hfeed
      split at hfeed
      · next hchunk =>
          obtain ⟨input, happend⟩ := Buffer.append_of_nextReadSize hchunk.2
          obtain ⟨first, input₁, queue₁, hcall⟩ : ∃ first input₁ queue₁,
              enqueueCompleteRequests (call.world.clients i).fd (call.world.clients i).conn
                ReadEnv.fair.mallocOk input call.world.queue = (first, input₁, queue₁) :=
            ⟨_, _, _, rfl⟩
          obtain ⟨call₁, hstep, hclient, hqueue, hok, hfails⟩ :=
            readClient_feed (w := w) hlast hchunk happend hcall
          rw [happend] at hfeed
          simp only [hcall] at hfeed
          have hinput : (call₁.world.clients i).input = input₁ := by rw [hclient]
          cases first with
          | error e =>
              cases hfeed
              exact ⟨[chunk], call₁, ⟨chunks, rfl⟩, .one hstep, hinput, hqueue, nofun,
                fun _ _ => hfails e rfl⟩
          | ok =>
              obtain ⟨pieces, call', hpieces, hrun, hinput', hqueue', hall, hfailed⟩ :=
                ih (hok rfl) (by rw [hclient, hqueue]; exact hfeed)
              refine ⟨chunk :: pieces, call', (List.prefix_cons_inj chunk).mpr hpieces,
                (StepSystem.Run.one hstep).append hrun, hinput', hqueue', ?_, hfailed⟩
              intro hresult
              obtain ⟨rfl, hagain⟩ := hall hresult
              exact ⟨rfl, hagain⟩
      · cases hfeed

theorem extraction_append (requests₁ requests₂ : List Request) (rest : Bytes) (k : Nat) :
    extraction (requests₁ ++ requests₂) rest (requests₁.length + k) = extraction requests₂ rest k := by
  simp only [extraction, List.length_append, gt_iff_lt, Nat.add_lt_add_iff_left]

/-- The requests that find room, when those of a first piece do. -/
theorem extracted_append (fd : Int) (conn : Nat) {requests₁ : List Request}
    (requests₂ : List Request) {queue : RequestQueue} (hlen : requests₁.length ≤ room queue) :
    let queue₁ := queue ++ extracted fd conn requests₁ (room queue)
    room queue = requests₁.length + room queue₁ ∧
      queue₁ ++ extracted fd conn requests₂ (room queue₁) =
        queue ++ extracted fd conn (requests₁ ++ requests₂) (room queue) := by
  have hall : extracted fd conn requests₁ (room queue) = requests₁.map (queued fd conn) := by
    rw [extracted, List.take_of_length_le hlen]
  have hroom : room queue =
      requests₁.length + room (queue ++ extracted fd conn requests₁ (room queue)) := by
    rw [hall]
    unfold room at hlen ⊢
    rw [List.length_append, List.length_map]
    omega
  refine ⟨hroom, ?_⟩
  rw [hall] at hroom ⊢
  rw [hroom, extracted, extracted, List.take_length_add_append, List.map_append, List.append_assoc]

/-- **What feeding a stream comes to**, when the input buffer holds the beginning of its first
frame. -/
theorem feed_extraction {chunks : List Bytes} {input input' : Buffer} {queue queue' : RequestQueue}
    {result : Except Errno Unit} {requests : List Request} {rest : Bytes} (hfd : 0 ≤ fd)
    (hparsed : requestVerdict input.data = .needMore)
    (hmax : requestCodec.Maximal (input.data ++ chunks.flatten) requests rest)
    (hfeed : feed fd conn input queue chunks = some (result, input', queue')) :
    result = extraction requests rest (room queue) ∧
      queue' = queue ++ extracted fd conn requests (room queue) ∧
      (result = .ok () → input'.data = rest) := by
  induction chunks generalizing input queue requests rest with
  | nil =>
      cases hfeed
      rw [List.flatten_nil, List.append_nil] at hmax
      have hnone : requestCodec.Maximal input'.data [] input'.data := .of_needMore _ rfl hparsed
      obtain ⟨rfl, rfl⟩ := hnone.unique hmax
      simp [extraction, extracted, hparsed]
  | cons chunk chunks ih =>
      unfold feed at hfeed
      split at hfeed
      · next hchunk =>
          obtain ⟨input₁, happend⟩ := Buffer.append_of_nextReadSize hchunk.2
          obtain ⟨hdata₁, -, -⟩ := Buffer.append_ok happend
          obtain ⟨requests₁, rest₁, hmax₁⟩ := requestCodec.exists_maximal input₁.data
          obtain ⟨input₂, hcall, hdata₂⟩ :=
            enqueueCompleteRequests_extraction conn queue hfd hmax₁
          -- the frames of the stream are those of this piece and those of what is left
          have hstream : input.data ++ (chunk :: chunks).flatten = input₁.data ++ chunks.flatten := by
            rw [hdata₁, List.flatten_cons, List.append_assoc]
          obtain ⟨requests₂, rest₂, hmax₂⟩ :=
            requestCodec.exists_maximal (rest₁ ++ chunks.flatten)
          rw [hstream] at hmax
          obtain ⟨rfl, rfl⟩ := hmax.unique (.append _ hmax₁.split hmax₂)
          rw [happend] at hfeed
          simp only [hcall] at hfeed
          by_cases hlen : requests₁.length > room queue
          · -- the queue is full within this piece
            have hall : (requests₁ ++ requests₂).length > room queue := by
              rw [List.length_append]
              omega
            rw [extraction, if_pos hlen] at hfeed
            cases hfeed
            refine ⟨by rw [extraction, if_pos hall], ?_, nofun⟩
            rw [extracted, extracted, List.take_append_of_le_length (Nat.le_of_lt hlen)]
          · have hlen' : requests₁.length ≤ room queue := Nat.le_of_not_lt hlen
            obtain ⟨hroom, hqueue⟩ :=
              extracted_append fd conn requests₂ hlen'
            by_cases hinvalid : requestVerdict rest₁ = .invalid
            · -- the header behind the frames of this piece is malformed, whatever follows it
              have hsplit : rest₁ = requestCodec.encodeAll [] ++ rest₁ := rfl
              have hnone := Codec.Maximal.of_invalid requestCodec chunks.flatten hsplit hinvalid
              obtain ⟨rfl, rfl⟩ := hnone.unique hmax₂
              have hinvalid' := requestVerdict_invalid_append chunks.flatten hinvalid
              rw [extraction, if_neg hlen, if_pos hinvalid] at hfeed
              cases hfeed
              rw [List.append_nil]
              exact ⟨by rw [extraction, if_neg hlen, if_pos hinvalid'], rfl, nofun⟩
            · have hmore : requestVerdict rest₁ = .needMore := by
                have hdone := hmax₁.done
                rw [show requestCodec.parse = requestVerdict from rfl] at hdone
                cases hverdict : requestVerdict rest₁ with
                | needMore => rfl
                | invalid => exact absurd hverdict hinvalid
                | complete r n => rw [hverdict] at hdone; cases hdone
              rw [extraction, if_neg hlen, if_neg hinvalid] at hfeed
              have hdata₂ := hdata₂ hlen'
              obtain ⟨hresult, hqueue', hdata'⟩ :=
                ih (by rw [hdata₂]; exact hmore) (by rw [hdata₂]; exact hmax₂) hfeed
              refine ⟨?_, ?_, hdata'⟩
              · rw [hresult, ← extraction_append requests₁, ← hroom]
              · rw [hqueue', hqueue]
      · cases hfeed

/-- **Where the stream is cut makes no difference.** A stream has its frames and what follows them,
and however it is cut into pieces that `wc_uds_read_client` may read into an empty input buffer,
this is what comes of it: with room for all frames and no malformed header behind them every call
succeeds, the frames are queued in order and the rest is in the input buffer; otherwise a call fails
after the first frames have been queued, as many as there was room for. A call of `wc_uds_read_client`
that reads the pieces leaves the same input buffer and the same queue, and goes on if and only if no
call has failed. -/
theorem fragmentation_independent (fd : Int) (conn : Nat) (hfd : 0 ≤ fd) (input : Buffer)
    (hempty : input.data = []) (queue : RequestQueue) (stream : Bytes) :
    ∃ requests rest, requestCodec.Maximal stream requests rest ∧
      ∀ chunks : List Bytes, chunks.flatten = stream →
      ∀ result input' queue', feed fd conn input queue chunks = some (result, input', queue') →
        (requests.length ≤ 256 - queue.length ∧ requestVerdict rest ≠ .invalid →
          result = .ok () ∧ queue' = queue ++ requests.map (queued fd conn) ∧
            input'.data = rest) ∧
        (¬ (requests.length ≤ 256 - queue.length ∧ requestVerdict rest ≠ .invalid) →
          result = .error (if requests.length > 256 - queue.length then .enobufs else .eproto) ∧
          queue' = queue ++
            (requests.take (min requests.length (256 - queue.length))).map (queued fd conn)) ∧
        ∀ (w : World) (i : Slot), (w.clients i).fd = fd → (w.clients i).conn = conn →
          (w.clients i).input = input → w.queue = queue →
          ∃ pieces call, pieces <+: chunks ∧
            (readCall w i).Run (.start w) (pieces.map readsPiece) call ∧
            (call.world.clients i).input = input' ∧ call.world.queue = queue' ∧
            (result = .ok () → pieces = chunks ∧ call.last = .again) ∧
            ∀ e, result = .error e → call.last = .failed := by
  obtain ⟨requests, rest, hmax⟩ := requestCodec.exists_maximal stream
  refine ⟨requests, rest, hmax, ?_⟩
  rintro chunks rfl result input' queue' hfeed
  obtain ⟨hresult, hqueue, hdata⟩ :=
    feed_extraction hfd (by rw [hempty]; rfl) (by rw [hempty]; exact hmax) hfeed
  have hroom : room queue = 256 - queue.length := rfl
  rw [hroom] at hresult hqueue
  refine ⟨?_, ?_, ?_⟩
  · rintro ⟨hlen, hvalid⟩
    have hok : result = .ok () := by
      rw [hresult, extraction, if_neg (Nat.not_lt.mpr hlen), if_neg hvalid]
    refine ⟨hok, ?_, hdata hok⟩
    rw [hqueue, extracted, List.take_of_length_le hlen]
  · intro hbad
    constructor
    · rw [hresult, extraction]
      by_cases hlen : requests.length > 256 - queue.length
      · rw [if_pos hlen, if_pos hlen]
      · have hinvalid : requestVerdict rest = .invalid := by
          by_contra hvalid
          exact hbad ⟨Nat.le_of_not_lt hlen, hvalid⟩
        rw [if_neg hlen, if_neg hlen, if_pos hinvalid]
    · rw [hqueue, extracted, Nat.min_comm, List.take_eq_take_min]
  · rintro w i rfl rfl rfl rfl
    exact readCall_feed rfl hfeed

/-- Two requests, cut in the middle of a header and read at once. -/
theorem fragmentation_independent_cut :
    let input := Buffer.init inputLimit inputLimit_le_sizeMax
    ∃ input₁ input₂ queue,
      feed 5 0 input [] [[0, 6, 0], [2, 0, 0, 0, 6], [0, 2, 0, 0]] = some (.ok (), input₁, queue) ∧
      feed 5 0 input [] [[0, 6, 0, 2, 0, 0, 0, 6, 0, 2, 0, 0]] = some (.ok (), input₂, queue) ∧
      queue = [queued 5 0 pwdRequest, queued 5 0 pwdRequest] ∧ input₁.data = input₂.data := by
  intro input
  obtain ⟨requests, rest, hmax, hcut⟩ := fragmentation_independent 5 0 (by decide) input rfl []
    [0, 6, 0, 2, 0, 0, 0, 6, 0, 2, 0, 0]
  have htwo : requestCodec.Maximal [0, 6, 0, 2, 0, 0, 0, 6, 0, 2, 0, 0] [pwdRequest, pwdRequest] [] :=
    ⟨by decide, rfl⟩
  obtain ⟨rfl, rfl⟩ := hmax.unique htwo
  have hsome₁ : (feed 5 0 input [] [[0, 6, 0], [2, 0, 0, 0, 6], [0, 2, 0, 0]]).isSome := by
    decide +kernel
  have hsome₂ : (feed 5 0 input [] [[0, 6, 0, 2, 0, 0, 0, 6, 0, 2, 0, 0]]).isSome := by
    decide +kernel
  obtain ⟨⟨result₁, input₁, queue₁⟩, hfeed₁⟩ := Option.isSome_iff_exists.mp hsome₁
  obtain ⟨⟨result₂, input₂, queue₂⟩, hfeed₂⟩ := Option.isSome_iff_exists.mp hsome₂
  obtain ⟨rfl, rfl, hdata₁⟩ := (hcut _ rfl _ _ _ hfeed₁).1 (by decide)
  obtain ⟨rfl, rfl, hdata₂⟩ := (hcut _ rfl _ _ _ hfeed₂).1 (by decide)
  exact ⟨input₁, input₂, _, hfeed₁, hfeed₂, rfl, hdata₁.trans hdata₂.symm⟩

end WireCommand.Uds
