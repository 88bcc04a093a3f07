import WireCommand.Protocol
import WireCommand.Foundation.Framing

/-!
# The language of responses

A response is a two-byte length and as many bytes. The length does not count its own header, so the
longest response is longer than any sixteen-bit number says, and the parser adds the two in
`size_t`.

* `parseResponse_header` evaluates the parser on any two header bytes, and `responseCodec` states
  encoder and parser as a framing codec, in which no front of a stream is malformed.
* `response_streams` says what follows for streams: any number of encoded responses decode to
  themselves, whatever their bytes look like, and decoding goes on behind them; and the parser
  accepts exactly the encoder's language.
-/

namespace WireCommand.Protocol

open Foundation.Framing

/-- A response on the wire. -/
def responseFrame (data : Bytes) : Bytes := encodeU16 (.ofNat data.length) ++ data

/-- What a response can carry. -/
abbrev Payload := { data : Bytes // data.length ≤ uint16Max }

@[simp] theorem responseFrame_length (data : Bytes) :
    (responseFrame data).length = responseHeaderSize + data.length := by
  rw [responseFrame, List.length_append]
  rfl

theorem responseFrame_drop (data : Bytes) :
    (responseFrame data).drop responseHeaderSize = data := rfl

/-! ## The encoder -/

theorem sizeAdd_responseHeaderSize {n : Nat} (h : n ≤ uint16Max) :
    sizeAdd responseHeaderSize n = responseHeaderSize + n := by
  apply sizeAdd_eq
  simp only [uint16Max, responseHeaderSize, sizeMax] at h ⊢
  omega

/-- A successful encoding appends the frame of the data and nothing else. -/
theorem encodeResponse_ok {output output' : Buffer} {data : Bytes} {headerOk dataOk : Bool}
    (h : encodeResponse output data headerOk dataOk = (.ok (), output')) :
    output'.data = output.data ++ responseFrame data ∧ output'.maxSize = output.maxSize ∧
      data.length ≤ uint16Max := by
  unfold encodeResponse at h
  split at h
  · cases h
  · next hlen =>
      simp only at h
      split at h
      · cases h
      · obtain ⟨hdata, hmax⟩ := Buffer.appendFrame_ok h
        exact ⟨hdata, hmax, Nat.le_of_not_lt hlen⟩

/-- With the allocator's help, data that fits is encoded. -/
theorem encodeResponse_of_fits {output : Buffer} {data : Bytes} (hdata : data.length ≤ uint16Max)
    (hfit : output.data.length + (responseHeaderSize + data.length) ≤ output.maxSize) :
    ∃ output', encodeResponse output data true true = (.ok (), output') := by
  have hroom : ¬ (output.length > output.maxSize ∨ responseHeaderSize + data.length >
      sizeSub output.maxSize output.length) := by
    rw [Buffer.sizeSub_length]
    unfold Buffer.length
    omega
  unfold encodeResponse
  rw [if_neg (Nat.not_lt.mpr hdata), sizeAdd_responseHeaderSize hdata]
  simp only
  rw [if_neg hroom]
  exact Buffer.appendFrame_of_fits hfit

/-- `frame` is exactly what `wc_protocol_encode_response` writes for this data. -/
def EncodesResponse (data frame : Bytes) : Prop :=
  ∃ output, encodeResponse (.init sizeMax (Nat.le_refl _)) data true true = (.ok (), output) ∧
    output.data = frame

theorem encodesResponse_iff {data frame : Bytes} :
    EncodesResponse data frame ↔ data.length ≤ uint16Max ∧ responseFrame data = frame := by
  constructor
  · rintro ⟨output, h, rfl⟩
    obtain ⟨hdata, -, hlen⟩ := encodeResponse_ok h
    exact ⟨hlen, by simpa using hdata.symm⟩
  · rintro ⟨hlen, rfl⟩
    let empty : Buffer := .init sizeMax (Nat.le_refl _)
    have hfit : empty.data.length + (responseHeaderSize + data.length) ≤ empty.maxSize := by
      show 0 + (responseHeaderSize + data.length) ≤ sizeMax
      simp only [uint16Max, responseHeaderSize, sizeMax] at hlen ⊢
      omega
    obtain ⟨output, h⟩ := encodeResponse_of_fits hlen hfit
    obtain ⟨hdata, -, -⟩ := encodeResponse_ok h
    exact ⟨output, h, hdata⟩

/-! ## The parser -/

/-- **The parser on any two header bytes.** -/
theorem parseResponse_header (length : UInt16) (tail : Bytes) :
    parseResponse (.bytes (encodeU16 length ++ tail)) false false = some (
      if tail.length < length.toNat then ⟨.needMore, none, some 0⟩
      else ⟨.complete, some ⟨tail.take length.toNat, length.toNat,
        responseHeaderSize + length.toNat⟩, some (responseHeaderSize + length.toNat)⟩) := by
  have hlt := length.toNat_lt
  have hdecode : decodeU16 (encodeU16 length ++ tail) responseLengthOffset = some length := by
    simp [encodeU16, decodeU16, responseLengthOffset, joinU16_encodeU16]
  have hsize : (encodeU16 length ++ tail).length = responseHeaderSize + tail.length := by
    rw [List.length_append]
    rfl
  have hsum : sizeAdd responseHeaderSize length.toNat = responseHeaderSize + length.toNat :=
    sizeAdd_responseHeaderSize (by simp only [uint16Max]; omega)
  have hdrop : (encodeU16 length ++ tail).drop responseHeaderSize = tail := rfl
  unfold parseResponse
  rw [if_neg (by simp [Span.isNull])]
  simp only [Span.size, Span.data, hsize, hdecode]
  rw [if_neg (by omega)]
  simp only [Option.bind_eq_bind, Option.bind_some, hsum, hdrop, Nat.add_lt_add_iff_left]
  split <;> rfl

theorem parseResponse_short {data : Bytes} (h : data.length < responseHeaderSize) :
    parseResponse (.bytes data) false false = some ⟨.needMore, none, some 0⟩ := by
  unfold parseResponse
  rw [if_neg (by simp [Span.isNull])]
  exact if_pos h

/-- A frame is recognised whatever follows it. -/
theorem parseResponse_frame (payload : Payload) (rest : Bytes) :
    parseResponse (.bytes (responseFrame payload ++ rest)) false false =
      some ⟨.complete, some ⟨payload, payload.val.length, (responseFrame payload).length⟩,
        some (responseFrame payload).length⟩ := by
  have hle := payload.property
  have hlength : (UInt16.ofNat payload.val.length).toNat = payload.val.length := by
    apply UInt16.toNat_ofNat_of_lt'
    simp only [uint16Max, UInt16.size] at hle ⊢
    omega
  rw [responseFrame_length, responseFrame, List.append_assoc, parseResponse_header, hlength,
    if_neg (by simp), List.take_left]

/-- **Every byte string is one of two things**, a frame with something behind it or a frame that is
cut off, and the parser says which. -/
theorem parseResponse_cases (data : Bytes) :
    (∃ (payload : Payload) (rest : Bytes), data = responseFrame payload ++ rest) ∨
    ∃ (payload : Payload) (missing : Bytes), missing ≠ [] ∧
      responseFrame payload = data ++ missing ∧
      parseResponse (.bytes data) false false = some ⟨.needMore, none, some 0⟩ := by
  have hframe : ∀ (length : UInt16) (tail : Bytes), tail.length = length.toNat →
      ∃ payload : Payload, responseFrame payload = encodeU16 length ++ tail := by
    intro length tail hlen
    have hlt := length.toNat_lt
    refine ⟨⟨tail, by simp only [uint16Max]; omega⟩, ?_⟩
    simp only [responseFrame, hlen, UInt16.ofNat_toNat]
  -- a header may announce more than has arrived, and the header itself may be cut off
  have hshort : ∀ (length : UInt16) (tail : Bytes), tail.length ≤ length.toNat →
      ∃ (payload : Payload) (missing : Bytes), missing.length = length.toNat - tail.length ∧
        responseFrame payload = encodeU16 length ++ (tail ++ missing) := by
    intro length tail hlen
    obtain ⟨payload, hpayload⟩ := hframe length
      (tail ++ List.replicate (length.toNat - tail.length) 0)
      (by rw [List.length_append, List.length_replicate]; omega)
    exact ⟨payload, _, List.length_replicate, hpayload⟩
  match data with
  | [] =>
      refine .inr ⟨⟨[], by simp⟩, responseFrame [], ?_, by simp, parseResponse_short (by decide)⟩
      simp [responseFrame, encodeU16]
  | [high] =>
      obtain ⟨payload, missing, -, hpayload⟩ := hshort (joinU16 high 0) [] (Nat.zero_le _)
      rw [encodeU16_joinU16] at hpayload
      exact .inr ⟨payload, 0 :: missing, by simp, by simpa using hpayload,
        parseResponse_short (Nat.lt_succ_self 1)⟩
  | high :: low :: tail =>
      have hdata : high :: low :: tail = encodeU16 (joinU16 high low) ++ tail := by
        rw [encodeU16_joinU16]
        rfl
      generalize joinU16 high low = length at hdata
      rw [hdata]
      by_cases hlen : tail.length < length.toNat
      · obtain ⟨payload, missing, hmissing, hpayload⟩ := hshort length tail (Nat.le_of_lt hlen)
        refine .inr ⟨payload, missing, ?_, ?_, ?_⟩
        · rintro rfl
          rw [List.length_nil] at hmissing
          omega
        · rw [hpayload, List.append_assoc]
        · rw [parseResponse_header, if_pos hlen]
      · obtain ⟨payload, hpayload⟩ := hframe length (tail.take length.toNat)
          (by rw [List.length_take]; omega)
        refine .inl ⟨payload, tail.drop length.toNat, ?_⟩
        rw [hpayload, List.append_assoc, List.take_append_drop]

/-! ## The codec -/

/-- What `wc_protocol_parse_response` says, with the view it hands out as a payload. -/
def responseVerdict (data : Bytes) : Verdict Payload :=
  match parseResponse (.bytes data) false false with
  | some ⟨.complete, some view, some consumed⟩ =>
      if h : view.data.length ≤ uint16Max then .complete ⟨view.data, h⟩ consumed else .invalid
  | some ⟨.needMore, _, _⟩ => .needMore
  | _ => .invalid

theorem responseVerdict_frame (payload : Payload) (rest : Bytes) :
    responseVerdict (responseFrame payload ++ rest) =
      .complete payload (responseFrame payload).length := by
  rw [responseVerdict, parseResponse_frame]
  exact dif_pos payload.property

theorem responseVerdict_complete {data : Bytes} {payload : Payload} {n : Nat}
    (h : responseVerdict data = .complete payload n) :
    n = (responseFrame payload).length ∧ ∃ rest, data = responseFrame payload ++ rest := by
  rcases parseResponse_cases data with ⟨payload', rest, rfl⟩ | ⟨_, _, -, -, hp⟩
  · rw [responseVerdict_frame] at h
    cases h
    exact ⟨rfl, rest, rfl⟩
  · rw [responseVerdict, hp] at h
    cases h

theorem responseVerdict_ne_invalid (data : Bytes) : responseVerdict data ≠ .invalid := by
  rcases parseResponse_cases data with ⟨payload, rest, rfl⟩ | ⟨_, _, -, -, hp⟩
  · rw [responseVerdict_frame]
    simp
  · rw [responseVerdict, hp]
    simp

/-- The responses of the protocol as self-delimiting frames. -/
def responseCodec : Codec Payload UInt8 where
  encode payload := responseFrame payload
  parse := responseVerdict
  encode_ne_nil payload h := by
    have := congrArg List.length h
    simp [responseHeaderSize] at this
  parse_encode := responseVerdict_frame
  encode_of_complete := responseVerdict_complete
  invalid_append _ h := absurd h (responseVerdict_ne_invalid _)

/-- The verdict and the parser's own words for it. -/
theorem parseResponse_eq (data : Bytes) :
    parseResponse (.bytes data) false false = some (
      match responseVerdict data with
      | .complete payload consumed =>
          ⟨.complete, some ⟨payload, payload.val.length, consumed⟩, some consumed⟩
      | .needMore => ⟨.needMore, none, some 0⟩
      | .invalid => ⟨.invalid, none, none⟩) := by
  rcases parseResponse_cases data with ⟨payload, rest, rfl⟩ | ⟨_, _, -, -, hp⟩
  · rw [responseVerdict_frame, parseResponse_frame]
  · rw [responseVerdict, hp]

/-! ## The parser accepts exactly the encoder's language -/

/-- `COMPLETE` says that an encoder's frame is at the front, and describes it. -/
theorem responseVerdict_complete_iff {data : Bytes} {view : ResponseView} {consumed : Nat} :
    (∃ payload : Payload, responseVerdict data = .complete payload consumed ∧
      (⟨payload, payload.val.length, consumed⟩ : ResponseView) = view) ↔
      ∃ frame rest, data = frame ++ rest ∧ EncodesResponse view.data frame ∧
        consumed = frame.length ∧ view.messageLength = frame.length ∧
        view.dataLength = view.data.length ∧
        view.data = (data.take consumed).drop responseHeaderSize := by
  constructor
  · rintro ⟨payload, hv, rfl⟩
    obtain ⟨rfl, rest, rfl⟩ := responseVerdict_complete hv
    refine ⟨_, rest, rfl, encodesResponse_iff.mpr ⟨payload.property, rfl⟩, rfl, rfl, rfl, ?_⟩
    rw [List.take_left, responseFrame_drop]
  · rintro ⟨frame, rest, rfl, henc, rfl, hmessage, hlength, -⟩
    obtain ⟨hle, hframe⟩ := encodesResponse_iff.mp henc
    refine ⟨⟨view.data, hle⟩, ?_, ?_⟩
    · rw [← hframe]
      exact responseVerdict_frame ⟨view.data, hle⟩ rest
    · apply ResponseView.ext
      · rfl
      · exact hlength.symm
      · exact hmessage.symm

/-- `NEED_MORE` says that a frame has begun, or that nothing is there. -/
theorem responseVerdict_needMore_iff {data : Bytes} :
    responseVerdict data = .needMore ↔
      data = [] ∨ ∃ payload frame, EncodesResponse payload frame ∧ data <+: frame ∧
        data ≠ frame := by
  constructor
  · intro h
    rcases parseResponse_cases data with ⟨payload, rest, rfl⟩ | ⟨payload, missing, hne, hframe, -⟩
    · rw [responseVerdict_frame] at h
      cases h
    · refine .inr ⟨payload, _, encodesResponse_iff.mpr ⟨payload.property, rfl⟩, ?_, ?_⟩
      · exact ⟨missing, hframe.symm⟩
      · intro heq
        rw [← heq] at hframe
        exact hne (List.self_eq_append_right.mp hframe)
  · rintro (rfl | ⟨payload, frame, henc, ⟨missing, hdata⟩, hne⟩)
    · rfl
    · obtain ⟨hle, rfl⟩ := encodesResponse_iff.mp henc
      apply responseCodec.parse_of_proper_prefix (a := ⟨payload, hle⟩) hdata.symm
      rintro rfl
      exact hne (by simpa using hdata)

/-! ## Streams of responses -/

/-- `wc_protocol_encode_response` for each of some payloads in turn, with the flags of its two
allocations; `none` when one of them fails. -/
def encodeResponses (output : Buffer) : List (Bytes × Bool × Bool) → Option Buffer
  | [] => some output
  | (data, headerOk, dataOk) :: more =>
      match encodeResponse output data headerOk dataOk with
      | (.ok (), output) => encodeResponses output more
      | (.error _, _) => none

/-- `wc_protocol_parse_response` and `wc_buffer_consume`, once: the data of the response at the
front, and the buffer behind it. -/
def takeResponse (input : Buffer) : Option (Bytes × Buffer) :=
  match parseResponse (.bytes input.data) false false with
  | some ⟨.complete, some response, some consumed⟩ =>
      match input.consume consumed with
      | .ok input => some (response.data, input)
      | .error _ => none
  | _ => none

/-- The same a number of times. -/
def takeResponses : Nat → Buffer → Option (List Bytes × Buffer)
  | 0, input => some ([], input)
  | n + 1, input => do
      let (data, input) ← takeResponse input
      let (more, input) ← takeResponses n input
      some (data :: more, input)

/-- What was encoded is the frames of the payloads. -/
theorem encodeResponses_ok {output output' : Buffer} {responses : List (Bytes × Bool × Bool)}
    (h : encodeResponses output responses = some output') :
    (∀ response ∈ responses, response.1.length ≤ uint16Max) ∧
      output'.data = output.data ++ responses.flatMap (responseFrame ·.1) := by
  induction responses generalizing output with
  | nil =>
      cases h
      simp
  | cons response responses ih =>
      obtain ⟨data, headerOk, dataOk⟩ := response
      unfold encodeResponses at h
      split at h
      · next output₁ hencode =>
          obtain ⟨hdata, -, hlen⟩ := encodeResponse_ok hencode
          obtain ⟨hall, hmore⟩ := ih h
          refine ⟨?_, ?_⟩
          · intro response hresponse
            rcases List.mem_cons.mp hresponse with rfl | hresponse
            · exact hlen
            · exact hall response hresponse
          · rw [hmore, hdata, List.flatMap_cons, List.append_assoc]
      · cases h

theorem takeResponse_frame {input : Buffer} (payload : Payload) {rest : Bytes}
    (hdata : input.data = responseFrame payload ++ rest) :
    ∃ input', takeResponse input = some (payload.val, input') ∧ input'.data = rest := by
  obtain ⟨input', hconsume⟩ := Buffer.consume_of_le input (responseFrame payload).length
    (by rw [hdata, List.length_append]; omega)
  obtain ⟨hdrop, -, -⟩ := Buffer.consume_ok hconsume
  refine ⟨input', ?_, by rw [hdrop, hdata, List.drop_left]⟩
  simp only [takeResponse, hdata, parseResponse_frame, hconsume]

/-- **Encoded responses decode to themselves**, and decoding goes on behind them. -/
theorem takeResponses_frames {payloads : List Bytes} {input : Buffer} {tail : Bytes}
    (hlen : ∀ payload ∈ payloads, payload.length ≤ uint16Max)
    (hdata : input.data = payloads.flatMap responseFrame ++ tail) :
    ∃ input', takeResponses payloads.length input = some (payloads, input') ∧
      input'.data = tail := by
  induction payloads generalizing input with
  | nil => exact ⟨input, rfl, hdata⟩
  | cons payload payloads ih =>
      rw [List.flatMap_cons, List.append_assoc] at hdata
      obtain ⟨input₁, htake, hdata₁⟩ :=
        takeResponse_frame ⟨payload, hlen payload List.mem_cons_self⟩ hdata
      obtain ⟨input', hmore, htail⟩ :=
        ih (fun other hother => hlen other (List.mem_cons_of_mem _ hother)) hdata₁
      refine ⟨input', ?_, htail⟩
      simp only [List.length_cons, takeResponses, htake, hmore, Option.bind_eq_bind,
        Option.bind_some]

/-- **Response streams decode uniquely.** Responses are encoded one after the other into any buffer;
what was appended, followed by any bytes, decodes to the same payloads in the same order, and what
is left are the bytes that followed. The parser reads no byte past the end, accepts exactly the
frames of the encoder, asks for more exactly in front of one, and never rejects. -/
theorem response_streams :
    (∀ (output output' : Buffer) (responses : List (Bytes × Bool × Bool)),
      encodeResponses output responses = some output' →
      ∀ (tail : Bytes) (input : Buffer), input.data = output'.data.drop output.length ++ tail →
      ∃ rest, takeResponses responses.length input = some (responses.map (·.1), rest) ∧
        rest.data = tail) ∧
    ∀ data : Bytes, ∃ parsed, parseResponse (.bytes data) false false = some parsed ∧
      (∀ view consumed,
        (parsed.result = .complete ∧ parsed.response = some view ∧
          parsed.consumed = some consumed) ↔
        ∃ frame rest, data = frame ++ rest ∧ EncodesResponse view.data frame ∧
          consumed = frame.length ∧ view.messageLength = frame.length ∧
          view.dataLength = view.data.length ∧ view.data = (data.take consumed).drop 2) ∧
      (parsed.result = .needMore ↔
        data = [] ∨ ∃ payload frame, EncodesResponse payload frame ∧ data <+: frame ∧
          data ≠ frame) ∧
      parsed.result ≠ .invalid := by
  constructor
  · intro output output' responses hencode tail input hinput
    obtain ⟨hlen, hdata⟩ := encodeResponses_ok hencode
    have happended : output'.data.drop output.length =
        (responses.map (·.1)).flatMap responseFrame := by
      rw [hdata, Buffer.length, List.drop_left, List.flatMap_map]
    rw [happended] at hinput
    have hpayloads : ∀ payload ∈ responses.map (·.1), payload.length ≤ uint16Max := by
      intro payload hpayload
      obtain ⟨response, hresponse, rfl⟩ := List.mem_map.mp hpayload
      exact hlen response hresponse
    simpa using takeResponses_frames hpayloads hinput
  · intro data
    refine ⟨_, parseResponse_eq data, ?_, ?_, ?_⟩
    · intro view consumed
      refine Iff.trans ?_ responseVerdict_complete_iff
      cases responseVerdict data with
      | needMore => simp
      | invalid => simp
      | complete payload n =>
          simp only [Option.some.injEq, true_and, Verdict.complete.injEq]
          constructor
          · rintro ⟨rfl, rfl⟩
            exact ⟨payload, ⟨rfl, rfl⟩, rfl⟩
          · rintro ⟨payload', ⟨rfl, rfl⟩, rfl⟩
            exact ⟨rfl, rfl⟩
    · refine Iff.trans ?_ responseVerdict_needMore_iff
      cases responseVerdict data <;> simp
    · have hvalid := responseVerdict_ne_invalid data
      cases hverdict : responseVerdict data with
      | invalid => exact absurd hverdict hvalid
      | needMore => simp
      | complete payload n => simp

/-- Two responses are appended behind a byte that was there, and found again in front of another. -/
theorem response_streams_two :
    let output : Buffer := ⟨[9], 64, 128, by decide, by decide, by decide⟩
    let input : Buffer := ⟨[0, 2, 5, 6, 0, 0, 8], 64, 128, by decide, by decide, by decide⟩
    ∃ output' rest, encodeResponses output [([5, 6], true, true), ([], true, true)] = some output' ∧
      output'.data = [9, 0, 2, 5, 6, 0, 0] ∧
      takeResponses 2 input = some ([[5, 6], []], rest) ∧ rest.data = [8] := by
  intro output input
  have hencodes : (encodeResponses output [([5, 6], true, true), ([], true, true)]).map (·.data) =
      some [9, 0, 2, 5, 6, 0, 0] := by decide +kernel
  obtain ⟨output', hencode, hdata⟩ := Option.map_eq_some_iff.mp hencodes
  have hinput : input.data = output'.data.drop output.length ++ [8] := by rw [hdata]; rfl
  obtain ⟨rest, htake, hrest⟩ := response_streams.1 output output' _ hencode [8] input hinput
  exact ⟨output', rest, hencode, hdata, htake, hrest⟩

end WireCommand.Protocol
