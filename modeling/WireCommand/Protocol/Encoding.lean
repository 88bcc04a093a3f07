import WireCommand.Buffer.Memory
import WireCommand.Protocol.Language
import WireCommand.Protocol.Responses

/-!
# Encoding is all or nothing

Both encoders check every limit before they write, append a header, and append a body that may still
fail for want of memory. `AllOrNothing` is what they promise together, and `encoding_all_or_nothing`
says that they keep it: for any type, any argument or payload, any output buffer and any failures of
the allocator, one whole frame is appended, or the buffer holds what it held before. The header of a
message that failed is taken back by setting `length`; `encodeRequest_simulates` and
`encodeResponse_simulates` say that in memory that comes to the same.
-/

namespace WireCommand.Protocol

/-- What an encoder leaves of `output`. `Encodable` says that the message is one the protocol can
carry and that it fits, `Allocated` that no allocation fails, and `Decodes frame` that the fields of
the frame are those of the message. -/
structure AllOrNothing (output : Buffer) (Encodable Allocated : Prop) (Decodes : Bytes → Prop)
    (encoded : Except Errno Unit × Buffer) : Prop where
  /-- Only what can be encoded is. -/
  encodable : encoded.1 = .ok () → Encodable
  /-- What can be encoded fails for want of memory alone. -/
  enomem : Encodable → ∀ e, encoded.1 = .error e → e = .enomem ∧ ¬ Allocated
  appended : encoded.1 = .ok () → encoded.2.maxSize = output.maxSize ∧
    ∃ frame, encoded.2.data = output.data ++ frame ∧ Decodes frame
  restored : ∀ e, encoded.1 = .error e → encoded.2.data = output.data ∧
    encoded.2.length = output.length ∧ encoded.2.maxSize = output.maxSize

/-- A message that is refused before anything is written. -/
theorem AllOrNothing.refused {output : Buffer} {Encodable Allocated : Prop}
    {Decodes : Bytes → Prop} (e : Errno) (h : ¬ Encodable) :
    AllOrNothing output Encodable Allocated Decodes (.error e, output) where
  encodable hok := by cases hok
  enomem hencodable := absurd hencodable h
  appended hok := by cases hok
  restored _ _ := ⟨rfl, rfl, rfl⟩

/-- A message that is refused because the buffer has no room for it. -/
theorem AllOrNothing.noRoom {output : Buffer} {Encodable Allocated : Prop}
    {Decodes : Bytes → Prop} {size : Nat} (e : Errno)
    (hroom : output.length > output.maxSize ∨ size > sizeSub output.maxSize output.length)
    (h : Encodable → size ≤ output.maxSize - output.length) :
    AllOrNothing output Encodable Allocated Decodes (.error e, output) := by
  have hlength : output.length ≤ output.maxSize := output.length_le_maxSize
  rw [Buffer.sizeSub_length] at hroom
  apply AllOrNothing.refused
  intro hencodable
  have hfits := h hencodable
  omega

/-- A message whose limits have been checked, and whose frame is a header and a body. -/
theorem AllOrNothing.appendFrame {output : Buffer} {Encodable : Prop} {Decodes : Bytes → Prop}
    {header body : Bytes} {headerOk bodyOk : Bool} (h : Encodable)
    (hfit : output.data.length + (header.length + body.length) ≤ output.maxSize)
    (hdecodes : Decodes (header ++ body)) :
    AllOrNothing output Encodable (headerOk = true ∧ bodyOk = true) Decodes
      (output.appendFrame header body headerOk bodyOk) := by
  obtain ⟨result, output', hencoded⟩ : ∃ result output',
      output.appendFrame header body headerOk bodyOk = (result, output') := ⟨_, _, rfl⟩
  rw [hencoded]
  refine ⟨fun _ => h, ?_, ?_, ?_⟩
  · rintro - e rfl
    obtain ⟨he, hfalse⟩ := Buffer.appendFrame_enomem hfit hencoded
    refine ⟨he, ?_⟩
    rintro ⟨rfl, rfl⟩
    simp at hfalse
  · rintro rfl
    obtain ⟨hdata, hmax⟩ := Buffer.appendFrame_ok hencoded
    exact ⟨hmax, header ++ body, hdata, hdecodes⟩
  · rintro e rfl
    obtain ⟨hdata, hmax⟩ := Buffer.appendFrame_restores hencoded
    exact ⟨hdata, congrArg List.length hdata, hmax⟩

/-! ## The two encoders -/

/-- A request of this type with this argument can be encoded into this buffer. -/
def RequestEncodable (output : Buffer) (type : Int) (argument : Bytes) : Prop :=
  (type = 1 ∨ type = 2 ∨ type = 3) ∧ argument.length ≤ 65529 ∧
    6 + argument.length ≤ output.maxSize - output.length

/-- The parser finds this type and this argument in the frame, and nothing behind them. -/
def DecodesRequest (type : Int) (argument frame : Bytes) : Prop :=
  ∃ t : RequestType, (t.code : Int) = type ∧
    parseRequest frame = some ⟨.complete,
      some ⟨t, argument, argument.length, 6 + argument.length⟩, frame.length⟩

/-- A response with this data can be encoded into this buffer. -/
def ResponseEncodable (output : Buffer) (data : Bytes) : Prop :=
  data.length ≤ 65535 ∧ 2 + data.length ≤ output.maxSize - output.length

/-- The parser finds this data in the frame, and nothing behind it. -/
def DecodesResponse (data frame : Bytes) : Prop :=
  parseResponse (.bytes frame) false false = some ⟨.complete,
    some ⟨data, data.length, 2 + data.length⟩, some frame.length⟩

theorem ofCode_isNone {type : Int} :
    (RequestType.ofCode type).isNone = true ↔ ¬ (type = 1 ∨ type = 2 ∨ type = 3) := by
  unfold RequestType.ofCode
  split
  · next h => simp [h]
  · split
    · next h => simp [h]
    · split
      · next h => simp [h]
      · next h₁ h₂ h₃ => simp [h₁, h₂, h₃]

theorem decodesRequest_frame (r : Request) : DecodesRequest r.type.code r.argument r.frame := by
  refine ⟨r.type, rfl, ?_⟩
  have h := parseRequest_frame r []
  rwa [List.append_nil] at h

theorem decodesResponse_frame {data : Bytes} (h : data.length ≤ uint16Max) :
    DecodesResponse data (responseFrame data) := by
  have hparse := parseResponse_frame ⟨data, h⟩ []
  rw [List.append_nil, responseFrame_length] at hparse
  rw [DecodesResponse, responseFrame_length]
  exact hparse

theorem encodeRequest_allOrNothing (output : Buffer) (type : Int) (argument : Bytes)
    (headerOk argumentOk : Bool) :
    AllOrNothing output (RequestEncodable output type argument)
      (headerOk = true ∧ argumentOk = true) (DecodesRequest type argument)
      (encodeRequest output type argument headerOk argumentOk) := by
  have hlength : output.length ≤ output.maxSize := output.length_le_maxSize
  unfold encodeRequest
  by_cases htype : (RequestType.ofCode type).isNone = true
  · rw [if_pos htype]
    exact .refused _ fun h => ofCode_isNone.mp htype h.1
  rw [if_neg htype]
  by_cases hlen : argument.length > uint16Max - requestHeaderSize
  · rw [if_pos hlen]
    exact .refused _ fun h => absurd h.2.1 (Nat.not_le.mpr hlen)
  have hle : argument.length ≤ maxArgumentLength := Nat.le_of_not_lt hlen
  rw [if_neg hlen, sizeAdd_headerSize hle]
  simp only
  by_cases hroom : output.length > output.maxSize ∨
      requestHeaderSize + argument.length > sizeSub output.maxSize output.length
  · rw [if_pos hroom]
    exact .noRoom _ hroom fun h => h.2.2
  · rw [if_neg hroom]
    rw [Buffer.sizeSub_length, not_or] at hroom
    -- the frame that is appended is the one of a request
    obtain ⟨t, ht⟩ : ∃ t, RequestType.ofCode type = some t := by
      rw [Option.isNone_iff_eq_none] at htype
      exact Option.ne_none_iff_exists'.mp htype
    have hcode := RequestType.code_of_ofCode ht
    have hframe := decodesRequest_frame ⟨t, argument, hle⟩
    apply AllOrNothing.appendFrame
    · exact ⟨not_not.mp fun h => htype (ofCode_isNone.mpr h), hle, Nat.le_of_not_lt hroom.2⟩
    · show output.length + (requestHeaderSize + argument.length) ≤ output.maxSize
      omega
    · rw [hcode, RequestType.ofInt_code]
      exact hframe

theorem encodeResponse_allOrNothing (output : Buffer) (data : Bytes) (headerOk dataOk : Bool) :
    AllOrNothing output (ResponseEncodable output data) (headerOk = true ∧ dataOk = true)
      (DecodesResponse data) (encodeResponse output data headerOk dataOk) := by
  have hlength : output.length ≤ output.maxSize := output.length_le_maxSize
  unfold encodeResponse
  by_cases hlen : data.length > uint16Max
  · rw [if_pos hlen]
    exact .refused _ fun h => absurd h.1 (Nat.not_le.mpr hlen)
  have hle : data.length ≤ uint16Max := Nat.le_of_not_lt hlen
  rw [if_neg hlen, sizeAdd_responseHeaderSize hle]
  simp only
  by_cases hroom : output.length > output.maxSize ∨
      responseHeaderSize + data.length > sizeSub output.maxSize output.length
  · rw [if_pos hroom]
    exact .noRoom _ hroom fun h => h.2
  · rw [if_neg hroom]
    rw [Buffer.sizeSub_length, not_or] at hroom
    apply AllOrNothing.appendFrame
    · exact ⟨hle, Nat.le_of_not_lt hroom.2⟩
    · show output.length + (responseHeaderSize + data.length) ≤ output.maxSize
      omega
    · exact decodesResponse_frame hle

/-! ## In memory -/

/-- `wc_protocol_encode_request` as it works on the memory of `output`. -/
def encodeRequestRaw (output : RawBuffer) (type : Int) (argument : Bytes)
    (headerRealloc argumentRealloc : Realloc) : Option (Except Errno Unit × RawBuffer) :=
  if (RequestType.ofCode type).isNone then
    some (.error .einval, output)
  else if argument.length > uint16Max - requestHeaderSize then
    some (.error .emsgsize, output)
  else
    let messageLength := sizeAdd requestHeaderSize argument.length
    if output.length > output.maxSize ∨
        messageLength > sizeSub output.maxSize output.length then
      some (.error .emsgsize, output)
    else
      output.appendFrame
        (requestHeader (.ofNat messageLength) (.ofInt type) (.ofNat argument.length)) argument
        headerRealloc argumentRealloc

/-- `wc_protocol_encode_response` as it works on the memory of `output`. -/
def encodeResponseRaw (output : RawBuffer) (data : Bytes) (headerRealloc dataRealloc : Realloc) :
    Option (Except Errno Unit × RawBuffer) :=
  if data.length > uint16Max then
    some (.error .emsgsize, output)
  else
    let messageLength := sizeAdd responseHeaderSize data.length
    if output.length > output.maxSize ∨
        messageLength > sizeSub output.maxSize output.length then
      some (.error .emsgsize, output)
    else
      output.appendFrame (encodeU16 (.ofNat data.length)) data headerRealloc dataRealloc

/-- An operation on a raw buffer touches no memory that is not its own, and does what the operation on
the buffer does. -/
def Simulates (encodedRaw : Option (Except Errno Unit × RawBuffer))
    (encoded : Except Errno Unit × Buffer) : Prop :=
  ∃ raw', encodedRaw = some (encoded.1, raw') ∧ raw'.Represents encoded.2

theorem encodeRequest_simulates {raw : RawBuffer} {output : Buffer} (h : raw.Represents output)
    (type : Int) (argument : Bytes) (headerRealloc argumentRealloc : Realloc) :
    Simulates (encodeRequestRaw raw type argument headerRealloc argumentRealloc)
      (encodeRequest output type argument headerRealloc.isSome argumentRealloc.isSome) := by
  unfold encodeRequestRaw encodeRequest
  rw [h.length, h.maxSize]
  split
  · exact ⟨raw, rfl, h⟩
  split
  · exact ⟨raw, rfl, h⟩
  simp only
  split
  · exact ⟨raw, rfl, h⟩
  · exact RawBuffer.appendFrame_simulates h ..

theorem encodeResponse_simulates {raw : RawBuffer} {output : Buffer} (h : raw.Represents output)
    (data : Bytes) (headerRealloc dataRealloc : Realloc) :
    Simulates (encodeResponseRaw raw data headerRealloc dataRealloc)
      (encodeResponse output data headerRealloc.isSome dataRealloc.isSome) := by
  unfold encodeResponseRaw encodeResponse
  rw [h.length, h.maxSize]
  split
  · exact ⟨raw, rfl, h⟩
  simp only
  split
  · exact ⟨raw, rfl, h⟩
  · exact RawBuffer.appendFrame_simulates h ..

/-- **Encoding is all or nothing**, for buffers and for the memory they lie in. -/
theorem encoding_all_or_nothing (output : Buffer) :
    (∀ (type : Int) (argument : Bytes) (headerOk argumentOk : Bool),
      AllOrNothing output (RequestEncodable output type argument)
        (headerOk = true ∧ argumentOk = true) (DecodesRequest type argument)
        (encodeRequest output type argument headerOk argumentOk)) ∧
    (∀ (data : Bytes) (headerOk dataOk : Bool),
      AllOrNothing output (ResponseEncodable output data) (headerOk = true ∧ dataOk = true)
        (DecodesResponse data) (encodeResponse output data headerOk dataOk)) ∧
    ∀ raw : RawBuffer, raw.Represents output →
      (∀ type argument headerRealloc argumentRealloc,
        Simulates (encodeRequestRaw raw type argument headerRealloc argumentRealloc)
          (encodeRequest output type argument headerRealloc.isSome argumentRealloc.isSome)) ∧
      ∀ data headerRealloc dataRealloc,
        Simulates (encodeResponseRaw raw data headerRealloc dataRealloc)
          (encodeResponse output data headerRealloc.isSome dataRealloc.isSome) :=
  ⟨encodeRequest_allOrNothing output, encodeResponse_allOrNothing output,
    fun _ h => ⟨encodeRequest_simulates h, encodeResponse_simulates h⟩⟩

/-- The header of a response is written, and taken back when there is no memory for the data: a buffer
of 64 bytes that holds 61 of them has room for the header only. -/
theorem encoding_all_or_nothing_restored :
    let held : Bytes := List.replicate 61 7
    let raw : RawBuffer := ⟨some (held ++ [0, 0, 0]), 61, 64, 128⟩
    ∃ raw', encodeResponseRaw raw [1, 2] none none = some (.error .enomem, raw') ∧
      raw'.contents = held ∧ raw'.data = some (held ++ [0, 2, 0]) := by
  intro held raw
  let output : Buffer := ⟨held, 64, 128, by decide, by decide, by decide⟩
  have hraw : raw.Represents output := ⟨by decide, by decide, rfl, rfl, rfl⟩
  obtain ⟨-, hresponse, hmemory⟩ := encoding_all_or_nothing output
  obtain ⟨raw', hencoded, h'⟩ := (hmemory raw hraw).2 [1, 2] none none
  have hresult : (encodeResponse output [1, 2] false false).1 = .error .enomem := by
    decide +kernel
  obtain ⟨hdata, -⟩ := (hresponse [1, 2] false false).restored _ hresult
  have hmemory' : (encodeResponseRaw raw [1, 2] none none).map (·.2.data) =
      some (some (held ++ [0, 2, 0])) := by decide +kernel
  refine ⟨raw', ?_, ?_, ?_⟩
  · rw [hencoded]
    exact congrArg (fun r => some (r, raw')) hresult
  · rw [h'.contents]
    exact hdata
  · rw [hencoded] at hmemory'
    simpa using hmemory'

end WireCommand.Protocol
