import WireCommand.Protocol
import WireCommand.Foundation.Framing

/-!
# The language of requests

A `Request` is what the protocol can carry: one of the three types and an argument of at most
65529 bytes. Its `frame` is the header and the argument.

* `encodeRequest_ok` and `encodeRequest_of_fits` say that the encoder appends exactly one frame.
* `parseRequest_header` evaluates the parser on any six header bytes; from it come the three
  verdicts, and `requestCodec`, which states the parser and the encoder as a framing codec for
  everything that is later said about streams.
* `parseRequest_language` puts them together: the parser accepts exactly the encoder's language.
-/

namespace WireCommand

open Protocol Foundation.Framing

/-- The longest argument a request can carry: `UINT16_MAX - WC_PROTOCOL_REQUEST_HEADER_SIZE`. -/
def maxArgumentLength : Nat := uint16Max - requestHeaderSize

/-- A request the protocol can carry. -/
@[ext] structure Request where
  type : RequestType
  argument : Bytes
  argument_le : argument.length ≤ maxArgumentLength
  deriving DecidableEq

namespace Request

/-- The header of a request on the wire. -/
def header (r : Request) : Bytes :=
  requestHeader (.ofNat (requestHeaderSize + r.argument.length)) (.ofNat r.type.code)
    (.ofNat r.argument.length)

/-- A request on the wire. -/
def frame (r : Request) : Bytes := r.header ++ r.argument

/-- What the parser hands out for a request. -/
def view (r : Request) : RequestView where
  type := r.type
  argument := r.argument
  argumentLength := r.argument.length
  messageLength := requestHeaderSize + r.argument.length

@[simp] theorem header_length (r : Request) : r.header.length = requestHeaderSize := rfl

@[simp] theorem frame_length (r : Request) :
    r.frame.length = requestHeaderSize + r.argument.length := by
  simp [frame]

theorem argument_length_lt (r : Request) : requestHeaderSize + r.argument.length < 2 ^ 16 := by
  have := r.argument_le
  simp only [maxArgumentLength, uint16Max, requestHeaderSize] at this ⊢
  omega

theorem frame_take (r : Request) : r.frame.take requestHeaderSize = r.header := by
  rw [frame, ← header_length r, List.take_left]

end Request

/-- A `PWD` request. -/
def pwdRequest : Request := ⟨.pwd, [], by decide⟩

namespace Protocol

/-! ## The encoder -/

theorem sizeAdd_headerSize {n : Nat} (h : n ≤ maxArgumentLength) :
    sizeAdd requestHeaderSize n = requestHeaderSize + n := by
  apply sizeAdd_eq
  simp only [maxArgumentLength, uint16Max, requestHeaderSize, sizeMax] at h ⊢
  omega

/-- A successful encoding appends the frame of a request and nothing else. -/
theorem encodeRequest_ok {output output' : Buffer} {type : Int} {argument : Bytes}
    {headerOk argumentOk : Bool}
    (h : encodeRequest output type argument headerOk argumentOk = (.ok (), output')) :
    ∃ r : Request, (r.type.code : Int) = type ∧ r.argument = argument ∧
      output'.data = output.data ++ r.frame ∧ output'.maxSize = output.maxSize := by
  unfold encodeRequest at h
  cases htype : RequestType.ofCode type with
  | none => simp [htype] at h
  | some type' =>
      have hcode := RequestType.code_of_ofCode htype
      rw [htype, if_neg (by simp)] at h
      split at h
      · cases h
      · next hlen =>
          have hle : argument.length ≤ maxArgumentLength := Nat.le_of_not_lt hlen
          simp only [sizeAdd_headerSize hle] at h
          split at h
          · cases h
          · obtain ⟨hdata, hmax⟩ := Buffer.appendFrame_ok h
            refine ⟨⟨type', argument, hle⟩, hcode.symm, rfl, ?_, hmax⟩
            simp only [hdata, hcode, RequestType.ofInt_code, Request.frame, Request.header]

/-- With the allocator's help, a request that fits is encoded. -/
theorem encodeRequest_of_fits (output : Buffer) (r : Request)
    (hfit : output.data.length + r.frame.length ≤ output.maxSize) :
    ∃ output', encodeRequest output r.type.code r.argument true true = (.ok (), output') := by
  have hlen : ¬ r.argument.length > uint16Max - requestHeaderSize := Nat.not_lt.mpr r.argument_le
  rw [Request.frame_length] at hfit
  have hroom : ¬ (output.length > output.maxSize ∨ requestHeaderSize + r.argument.length >
      sizeSub output.maxSize output.length) := by
    rw [Buffer.sizeSub_length]
    unfold Buffer.length
    omega
  unfold encodeRequest
  rw [RequestType.ofCode_code, if_neg (by simp), if_neg hlen, sizeAdd_headerSize r.argument_le]
  simp only
  rw [if_neg hroom]
  exact Buffer.appendFrame_of_fits hfit

/-- `frame` is exactly what `wc_protocol_encode_request` writes for this type and argument. -/
def Encodes (type : RequestType) (argument frame : Bytes) : Prop :=
  ∃ output, encodeRequest (Buffer.init uint16Max uint16Max_le_sizeMax) type.code argument true true
    = (.ok (), output) ∧ output.data = frame

theorem encodes_frame (r : Request) : Encodes r.type r.argument r.frame := by
  have hfit := r.argument_length_lt
  obtain ⟨output, h⟩ := encodeRequest_of_fits (.init uint16Max uint16Max_le_sizeMax) r
    (by simp only [Buffer.init_data, Buffer.init_maxSize, Request.frame_length, List.length_nil,
          uint16Max]
        omega)
  obtain ⟨r', htype, hargument, hdata, -⟩ := encodeRequest_ok h
  have hr : r' = r := by
    apply Request.ext
    · exact RequestType.code_injective (Int.ofNat.inj htype)
    · exact hargument
  exact ⟨output, h, by simpa [hr] using hdata⟩

theorem encodes_iff {type : RequestType} {argument frame : Bytes} :
    Encodes type argument frame ↔
      ∃ r : Request, r.type = type ∧ r.argument = argument ∧ r.frame = frame := by
  constructor
  · rintro ⟨output, h, rfl⟩
    obtain ⟨r, htype, hargument, hdata, -⟩ := encodeRequest_ok h
    have htype' : r.type = type := RequestType.code_injective (Int.ofNat.inj htype)
    exact ⟨r, htype', hargument, by simpa using hdata.symm⟩
  · rintro ⟨r, rfl, rfl, rfl⟩
    exact encodes_frame r

/-! ## The parser -/

theorem requestHeader_injective {l t a l' t' a' : UInt16}
    (h : requestHeader l t a = requestHeader l' t' a') : l = l' ∧ t = t' ∧ a = a' := by
  unfold requestHeader at h
  obtain ⟨h, ha⟩ := List.append_inj h rfl
  obtain ⟨hl, ht⟩ := List.append_inj h rfl
  exact ⟨encodeU16_injective hl, encodeU16_injective ht, encodeU16_injective ha⟩

/-- Six bytes are the header of some three numbers. -/
theorem exists_requestHeader {data : Bytes} (h : requestHeaderSize ≤ data.length) :
    ∃ messageLength type argumentLength : UInt16, ∃ tail : Bytes,
      data = requestHeader messageLength type argumentLength ++ tail := by
  match data, h with
  | b₀ :: b₁ :: b₂ :: b₃ :: b₄ :: b₅ :: tail, _ =>
      refine ⟨joinU16 b₀ b₁, joinU16 b₂ b₃, joinU16 b₄ b₅, tail, ?_⟩
      simp only [requestHeader, encodeU16_joinU16]
      rfl

theorem decodeU16_header (messageLength type argumentLength : UInt16) (tail : Bytes) :
    let data := requestHeader messageLength type argumentLength ++ tail
    decodeU16 data requestLengthOffset = some messageLength ∧
    decodeU16 data requestTypeOffset = some type ∧
    decodeU16 data requestArgumentLengthOffset = some argumentLength := by
  simp [requestHeader, encodeU16, decodeU16, requestLengthOffset, requestTypeOffset,
    requestArgumentLengthOffset, joinU16_encodeU16]

/-- **The parser on any six header bytes.** The test against the header size is subsumed by the
test of the two lengths against each other. -/
theorem parseRequest_header (messageLength type argumentLength : UInt16) (tail : Bytes) :
    parseRequest (requestHeader messageLength type argumentLength ++ tail) = some (
      match RequestType.ofCode type.toNat with
      | none => ⟨.invalid, none, 0⟩
      | some type =>
          if messageLength.toNat ≠ requestHeaderSize + argumentLength.toNat then
            ⟨.invalid, none, 0⟩
          else if tail.length < argumentLength.toNat then
            ⟨.needMore, none, 0⟩
          else
            ⟨.complete, some ⟨type, tail.take argumentLength.toNat, argumentLength.toNat,
              messageLength.toNat⟩, messageLength.toNat⟩) := by
  obtain ⟨hlength, htype, hargument⟩ := decodeU16_header messageLength type argumentLength tail
  have hsize : (requestHeader messageLength type argumentLength ++ tail).length
      = requestHeaderSize + tail.length := by rw [List.length_append]; rfl
  have hdrop : (requestHeader messageLength type argumentLength ++ tail).drop requestHeaderSize
      = tail := rfl
  have hsum : sizeAdd requestHeaderSize argumentLength.toNat
      = requestHeaderSize + argumentLength.toNat := by
    have := argumentLength.toNat_lt
    apply sizeAdd_eq
    simp only [requestHeaderSize, sizeMax]
    omega
  unfold parseRequest
  -- with the header there, the three reads succeed and the `size_t` sum is exact
  rw [if_neg (by rw [hsize]; omega), hlength, htype, hargument]
  simp only [Option.bind_eq_bind, Option.bind_some, hsum, hsize, hdrop]
  cases RequestType.ofCode type.toNat with
  | none => rfl
  | some type =>
      simp only
      split
      · rw [if_pos (by omega)]
      · split
        · rfl
        · next hne =>
            have heq : messageLength.toNat = requestHeaderSize + argumentLength.toNat := by
              simpa using hne
            rw [heq]
            simp only [Nat.add_lt_add_iff_left]
            split <;> rfl

theorem parseRequest_short {data : Bytes} (h : data.length < requestHeaderSize) :
    parseRequest data = some ⟨.needMore, none, 0⟩ := by
  unfold parseRequest
  rw [if_pos h]

/-- A frame is recognised whatever follows it. -/
theorem parseRequest_frame (r : Request) (rest : Bytes) :
    parseRequest (r.frame ++ rest) = some ⟨.complete, some r.view, r.frame.length⟩ := by
  have hlt := r.argument_length_lt
  have hl : (UInt16.ofNat (requestHeaderSize + r.argument.length)).toNat
      = requestHeaderSize + r.argument.length := UInt16.toNat_ofNat_of_lt' hlt
  have ha : (UInt16.ofNat r.argument.length).toNat = r.argument.length :=
    UInt16.toNat_ofNat_of_lt' (Nat.lt_of_le_of_lt (Nat.le_add_left _ _) hlt)
  have ht : (UInt16.ofNat r.type.code).toNat = r.type.code := by cases r.type <;> rfl
  rw [Request.frame_length, Request.frame, Request.header, List.append_assoc, parseRequest_header,
    ht, RequestType.ofCode_code]
  simp only [hl, ha]
  rw [if_neg (by simp), if_neg (by simp), List.take_left]
  rfl

/-- A header that announces more than has arrived is the front of a frame. -/
theorem exists_frame_of_short {type : RequestType} {messageLength typeCode argumentLength : UInt16}
    {tail : Bytes} (htype : RequestType.ofCode typeCode.toNat = some type)
    (hlength : messageLength.toNat = requestHeaderSize + argumentLength.toNat)
    (hshort : tail.length ≤ argumentLength.toNat) :
    ∃ r : Request, ∃ missing : Bytes, missing.length = argumentLength.toNat - tail.length ∧
      r.type = type ∧ r.argument = tail ++ missing ∧
      r.header = requestHeader messageLength typeCode argumentLength := by
  have hlt := messageLength.toNat_lt
  let missing : Bytes := List.replicate (argumentLength.toNat - tail.length) 0
  have hmissing : missing.length = argumentLength.toNat - tail.length := List.length_replicate
  have hargument : (tail ++ missing).length = argumentLength.toNat := by
    rw [List.length_append, hmissing]; omega
  have hle : (tail ++ missing).length ≤ maxArgumentLength := by
    rw [hargument]
    simp only [maxArgumentLength, uint16Max, requestHeaderSize] at hlength ⊢
    omega
  refine ⟨⟨type, tail ++ missing, hle⟩, missing, hmissing, rfl, rfl, ?_⟩
  have hcode : typeCode.toNat = type.code := by
    have := RequestType.code_of_ofCode htype
    exact_mod_cast this
  simp only [Request.header, hargument, ← hlength, ← hcode, UInt16.ofNat_toNat]

/-- **Every byte string is one of four things**, and the parser says which: too short for a header,
a frame with something behind it, a frame that is cut off, or a header no frame has. -/
theorem parseRequest_cases (data : Bytes) :
    (data.length < requestHeaderSize ∧ parseRequest data = some ⟨.needMore, none, 0⟩) ∨
    (∃ (r : Request) (rest : Bytes), data = r.frame ++ rest) ∨
    (∃ (r : Request) (missing : Bytes), missing ≠ [] ∧ r.frame = data ++ missing ∧
      parseRequest data = some ⟨.needMore, none, 0⟩) ∨
    (requestHeaderSize ≤ data.length ∧
      (∀ r : Request, data.take requestHeaderSize ≠ r.header) ∧
      parseRequest data = some ⟨.invalid, none, 0⟩) := by
  by_cases hsize : data.length < requestHeaderSize
  · exact .inl ⟨hsize, parseRequest_short hsize⟩
  right
  have hle : requestHeaderSize ≤ data.length := Nat.le_of_not_lt hsize
  obtain ⟨l, t, a, tail, rfl⟩ := exists_requestHeader hle
  have htake : (requestHeader l t a ++ tail).take requestHeaderSize = requestHeader l t a := rfl
  have hparse := parseRequest_header l t a tail
  cases htype : RequestType.ofCode t.toNat with
  | none =>
      -- no frame has this type
      refine .inr (.inr ⟨hle, ?_, by simpa [htype] using hparse⟩)
      intro r hr
      rw [htake] at hr
      obtain ⟨-, ht, -⟩ := requestHeader_injective hr
      have hcode : t.toNat = r.type.code := by rw [ht]; cases r.type <;> rfl
      rw [hcode, RequestType.ofCode_code] at htype
      cases htype
  | some type =>
      rw [htype] at hparse
      simp only at hparse
      by_cases hlength : l.toNat = requestHeaderSize + a.toNat
      · rw [if_neg (by simpa using hlength)] at hparse
        by_cases hshort : tail.length < a.toNat
        · rw [if_pos hshort] at hparse
          obtain ⟨r, missing, hlen, -, hargument, hheader⟩ :=
            exists_frame_of_short htype hlength (Nat.le_of_lt hshort)
          refine .inr (.inl ⟨r, missing, ?_, ?_, hparse⟩)
          · intro hnil
            rw [hnil, List.length_nil] at hlen
            omega
          · rw [Request.frame, hheader, hargument, List.append_assoc]
        · have hsplit : (tail.take a.toNat).length ≤ a.toNat := by
            rw [List.length_take]; omega
          obtain ⟨r, missing, hlen, -, hargument, hheader⟩ :=
            exists_frame_of_short htype hlength hsplit
          have hnil : missing = [] := by
            rw [List.length_take] at hlen
            exact List.eq_nil_of_length_eq_zero (by omega)
          refine .inl ⟨r, tail.drop a.toNat, ?_⟩
          rw [Request.frame, hheader, hargument, hnil, List.append_nil, List.append_assoc,
            List.take_append_drop]
      · -- the two lengths of no frame disagree
        rw [if_pos hlength] at hparse
        refine .inr (.inr ⟨hle, ?_, hparse⟩)
        intro r hr
        rw [htake] at hr
        obtain ⟨hl, -, ha⟩ := requestHeader_injective hr
        have hlt := r.argument_length_lt
        apply hlength
        rw [hl, ha, UInt16.toNat_ofNat_of_lt' hlt,
          UInt16.toNat_ofNat_of_lt' (Nat.lt_of_le_of_lt (Nat.le_add_left _ _) hlt)]

/-! ## The codec -/

/-- What `wc_protocol_parse_request` says, with the view it hands out as a request. -/
def requestVerdict (data : Bytes) : Verdict Request :=
  match parseRequest data with
  | some ⟨.complete, some view, consumed⟩ =>
      if h : view.argument.length ≤ maxArgumentLength then
        .complete ⟨view.type, view.argument, h⟩ consumed
      else
        .invalid
  | some ⟨.needMore, _, _⟩ => .needMore
  | _ => .invalid

theorem requestVerdict_frame (r : Request) (rest : Bytes) :
    requestVerdict (r.frame ++ rest) = .complete r r.frame.length := by
  simp [requestVerdict, parseRequest_frame, Request.view, r.argument_le]

/-- The verdict and the parser's own words for it; no byte past the end is read. -/
theorem parseRequest_eq (data : Bytes) :
    parseRequest data = some (
      match requestVerdict data with
      | .complete r consumed => ⟨.complete, some r.view, consumed⟩
      | .needMore => ⟨.needMore, none, 0⟩
      | .invalid => ⟨.invalid, none, 0⟩) := by
  rcases parseRequest_cases data with ⟨-, h⟩ | ⟨r, rest, rfl⟩ | ⟨_, _, -, -, h⟩ | ⟨-, -, h⟩
  · simp [requestVerdict, h]
  · rw [requestVerdict_frame, parseRequest_frame]
  · simp [requestVerdict, h]
  · simp [requestVerdict, h]

theorem requestVerdict_complete {data : Bytes} {r : Request} {n : Nat}
    (h : requestVerdict data = .complete r n) :
    n = r.frame.length ∧ ∃ rest, data = r.frame ++ rest := by
  rcases parseRequest_cases data with ⟨-, hp⟩ | ⟨r', rest, rfl⟩ | ⟨_, _, -, -, hp⟩ | ⟨-, -, hp⟩
  · simp [requestVerdict, hp] at h
  · rw [requestVerdict_frame] at h
    cases h
    exact ⟨rfl, rest, rfl⟩
  · simp [requestVerdict, hp] at h
  · simp [requestVerdict, hp] at h

/-- `INVALID` says that no frame has this header. -/
theorem requestVerdict_invalid_iff {data : Bytes} :
    requestVerdict data = .invalid ↔
      requestHeaderSize ≤ data.length ∧ ∀ r : Request, data.take requestHeaderSize ≠ r.header := by
  have hframe : ∀ (r : Request) (rest : Bytes),
      (r.frame ++ rest).take requestHeaderSize = r.header := by
    intro r rest
    rw [Request.frame, List.append_assoc, ← r.header_length, List.take_left]
  rcases parseRequest_cases data with ⟨hlt, hp⟩ | ⟨r, rest, rfl⟩ | ⟨r, missing, -, hr, hp⟩ |
    ⟨hle, hno, hp⟩
  · simp only [requestVerdict, hp, reduceCtorEq, false_iff, not_and]
    omega
  · simp only [requestVerdict_frame, reduceCtorEq, false_iff, not_and]
    intro _ hno
    exact hno r (hframe r rest)
  · simp only [requestVerdict, hp, reduceCtorEq, false_iff, not_and]
    intro hle hno
    apply hno r
    have := hframe r []
    rwa [List.append_nil, hr, List.take_append_of_le_length hle] at this
  · simp only [requestVerdict, hp, true_iff]
    exact ⟨hle, hno⟩

/-- A header no frame has is still there when more bytes arrive. -/
theorem requestVerdict_invalid_append {data : Bytes} (more : Bytes)
    (h : requestVerdict data = .invalid) : requestVerdict (data ++ more) = .invalid := by
  rw [requestVerdict_invalid_iff] at h ⊢
  refine ⟨?_, ?_⟩
  · rw [List.length_append]; omega
  · rw [List.take_append_of_le_length h.1]
    exact h.2

/-- The requests of the protocol as self-delimiting frames. -/
def requestCodec : Codec Request UInt8 where
  encode := Request.frame
  parse := requestVerdict
  encode_ne_nil r h := by
    have := congrArg List.length h
    simp [requestHeaderSize] at this
  parse_encode := requestVerdict_frame
  encode_of_complete := requestVerdict_complete
  invalid_append := requestVerdict_invalid_append

@[simp] theorem requestCodec_encode (r : Request) : requestCodec.encode r = r.frame := rfl

/-- An input that asks for more is shorter than the longest frame. -/
theorem length_lt_of_needMore {data : Bytes} (h : requestVerdict data = .needMore) :
    data.length < uint16Max := by
  rcases parseRequest_cases data with ⟨hlt, -⟩ | ⟨r, rest, rfl⟩ | ⟨r, missing, hne, hr, -⟩ |
    ⟨-, -, hp⟩
  · simp only [requestHeaderSize, uint16Max] at hlt ⊢
    omega
  · rw [requestVerdict_frame] at h
    cases h
  · have hlen := congrArg List.length hr
    have hlt := r.argument_length_lt
    have hpos := List.length_pos_iff.mpr hne
    rw [Request.frame_length, List.length_append] at hlen
    simp only [uint16Max]
    omega
  · simp [requestVerdict, hp] at h

/-! ## The parser accepts exactly the encoder's language -/

/-- `NEED_MORE` says that a frame may still be coming. -/
theorem requestVerdict_needMore_iff {data : Bytes} :
    requestVerdict data = .needMore ↔
      data.length < requestHeaderSize ∨ ∃ r : Request, data <+: r.frame ∧ data ≠ r.frame := by
  constructor
  · intro h
    rcases parseRequest_cases data with ⟨hlt, -⟩ | ⟨r, rest, rfl⟩ | ⟨r, missing, hne, hr, -⟩ |
      ⟨-, -, hp⟩
    · exact .inl hlt
    · rw [requestVerdict_frame] at h
      cases h
    · refine .inr ⟨r, ⟨missing, hr.symm⟩, ?_⟩
      intro heq
      rw [← heq] at hr
      exact hne (List.self_eq_append_right.mp hr)
    · simp [requestVerdict, hp] at h
  · rintro (hlt | ⟨r, ⟨missing, hr⟩, hne⟩)
    · simp [requestVerdict, parseRequest_short hlt]
    · apply requestCodec.parse_of_proper_prefix (a := r) hr.symm
      intro hnil
      rw [hnil, List.append_nil] at hr
      exact hne hr

theorem Request.frame_drop (r : Request) : r.frame.drop requestHeaderSize = r.argument := by
  rw [Request.frame, ← r.header_length, List.drop_left]

/-- `COMPLETE` says that an encoder's frame is at the front, and describes it. -/
theorem requestVerdict_complete_iff {data : Bytes} {view : RequestView} {consumed : Nat} :
    (∃ r : Request, requestVerdict data = .complete r consumed ∧ r.view = view) ↔
      ∃ frame rest, data = frame ++ rest ∧ Encodes view.type view.argument frame ∧
        consumed = frame.length ∧ view.messageLength = frame.length ∧
        view.argumentLength = view.argument.length ∧
        view.argument = (data.take consumed).drop requestHeaderSize := by
  constructor
  · rintro ⟨r, hv, rfl⟩
    obtain ⟨rfl, rest, rfl⟩ := requestVerdict_complete hv
    refine ⟨r.frame, rest, rfl, encodes_frame r, rfl, (Request.frame_length r).symm, rfl, ?_⟩
    rw [List.take_left, Request.frame_drop]
    rfl
  · rintro ⟨frame, rest, rfl, henc, rfl, hmessage, hlength, -⟩
    obtain ⟨r, htype, hargument, rfl⟩ := encodes_iff.mp henc
    refine ⟨r, requestVerdict_frame r rest, ?_⟩
    apply RequestView.ext
    · exact htype
    · exact hargument
    · rw [hlength, ← hargument]; rfl
    · rw [hmessage, Request.frame_length]; rfl

/-- The encoder's frames are those of the requests. -/
theorem exists_encodes_iff {P : Bytes → Prop} :
    (∃ type argument frame, Encodes type argument frame ∧ P frame) ↔ ∃ r : Request, P r.frame := by
  constructor
  · rintro ⟨type, argument, frame, henc, hp⟩
    obtain ⟨r, -, -, rfl⟩ := encodes_iff.mp henc
    exact ⟨r, hp⟩
  · rintro ⟨r, hp⟩
    exact ⟨r.type, r.argument, r.frame, encodes_frame r, hp⟩

/-- **The request parser accepts exactly the language of the request encoder.** -/
theorem parseRequest_language (data : Bytes) :
    -- no byte at or past the end is read
    ∃ parsed, parseRequest data = some parsed ∧
    -- the encoder's frames are those of the three types and of the arguments up to 65529 bytes
    (∀ type argument, (∃ frame, Encodes type argument frame) ↔ argument.length ≤ 65529) ∧
    (∀ view consumed,
      (parsed.result = .complete ∧ parsed.request = some view ∧ parsed.consumed = consumed) ↔
        ∃ frame rest, data = frame ++ rest ∧ Encodes view.type view.argument frame ∧
          consumed = frame.length ∧ view.messageLength = frame.length ∧
          view.argumentLength = view.argument.length ∧
          view.argument = (data.take consumed).drop 6) ∧
    (parsed.result = .needMore ↔
      data.length < 6 ∨
        ∃ type argument frame, Encodes type argument frame ∧ data <+: frame ∧ data ≠ frame) ∧
    (parsed.result = .invalid ↔
      6 ≤ data.length ∧
        ¬ ∃ type argument frame, Encodes type argument frame ∧ data.take 6 = frame.take 6) ∧
    (parsed.result ≠ .complete → parsed.consumed = 0) ∧
    (parsed.result ≠ .needMore → ∀ more, parseRequest (data ++ more) = some parsed) := by
  refine ⟨_, parseRequest_eq data, ?_, ?_, ?_, ?_, ?_, ?_⟩
  · intro type argument
    constructor
    · rintro ⟨frame, henc⟩
      obtain ⟨r, -, rfl, -⟩ := encodes_iff.mp henc
      exact r.argument_le
    · intro hle
      exact ⟨_, encodes_frame ⟨type, argument, hle⟩⟩
  · intro view consumed
    refine Iff.trans ?_ requestVerdict_complete_iff
    cases requestVerdict data <;> simp
    tauto
  · rw [exists_encodes_iff]
    refine Iff.trans ?_ requestVerdict_needMore_iff
    cases requestVerdict data <;> simp
  · have hheader : (∃ r : Request, data.take 6 = r.frame.take 6) ↔
        ¬ ∀ r : Request, data.take requestHeaderSize ≠ r.header := by
      simp only [not_forall, ne_eq, not_not]
      exact exists_congr fun r => by rw [← r.frame_take]; rfl
    rw [exists_encodes_iff, hheader, not_not]
    refine Iff.trans ?_ requestVerdict_invalid_iff
    cases requestVerdict data <;> simp
  · cases requestVerdict data <;> simp
  · intro hne more
    rw [parseRequest_eq]
    cases hv : requestVerdict data with
    | complete r n =>
        have happend : requestVerdict (data ++ more) = .complete r n :=
          requestCodec.complete_append more hv
        rw [happend]
    | needMore => simp [hv] at hne
    | invalid => rw [requestVerdict_invalid_append more hv]

end Protocol

end WireCommand
