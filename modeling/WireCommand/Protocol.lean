import WireCommand.Buffer
import Mathlib.Data.Nat.Bitwise

/-!
# The wire protocol

The two encoders and the two parsers, as the program computes them.

* A request is a six-byte header (total length, type, argument length, each two bytes in network
  byte order) followed by the raw argument.
* A response is a two-byte length followed by that many bytes.

Reading a byte is partial: `decodeU16` returns `none` when it would look at or past the end of the
data it was given, and so would a parser that calls it there. That `parseRequest` never does is part
of `parseRequest_language`, and that `parseResponse` never does is part of `response_streams`.

An encoder commits its header before it appends the body, so a failure between the two has to be
rolled back. The two flags of an encoder say whether each of its two possible `realloc` calls
succeeds.
-/

namespace WireCommand

/-- `enum wc_request_type`. -/
inductive RequestType where
  | ls
  | pwd
  | cat
  deriving DecidableEq, Repr

namespace RequestType

/-- The number of a request type on the wire. -/
def code : RequestType → Nat
  | .ls => 1
  | .pwd => 2
  | .cat => 3

/-- `wc_protocol_request_type_valid` with the cast to the enumeration behind it: the type a number
names, if it is a valid one. -/
def ofCode (type : Int) : Option RequestType :=
  if type = 1 then some .ls
  else if type = 2 then some .pwd
  else if type = 3 then some .cat
  else none

@[simp] theorem ofCode_code (type : RequestType) : ofCode type.code = some type := by
  cases type <;> rfl

theorem code_of_ofCode {n : Int} {type : RequestType} (h : ofCode n = some type) :
    n = type.code := by
  unfold ofCode at h
  split at h
  · next hn => cases h; simpa [code] using hn
  · split at h
    · next hn => cases h; simpa [code] using hn
    · split at h
      · next hn => cases h; simpa [code] using hn
      · cases h

theorem code_injective : Function.Injective code := by
  intro type type' h
  rw [← Option.some_inj, ← ofCode_code, ← ofCode_code, h]

/-- The cast `(uint16_t)type` keeps the number of a valid type. -/
theorem ofInt_code (type : RequestType) : UInt16.ofInt type.code = UInt16.ofNat type.code := by
  cases type <;> rfl

end RequestType

namespace Protocol

/-! ## Layout -/

/-- `WC_PROTOCOL_REQUEST_LENGTH_OFFSET`. -/
def requestLengthOffset : Nat := 0

/-- `WC_PROTOCOL_REQUEST_TYPE_OFFSET`. -/
def requestTypeOffset : Nat := 2

/-- `WC_PROTOCOL_REQUEST_ARGUMENT_LENGTH_OFFSET`. -/
def requestArgumentLengthOffset : Nat := 4

/-- `WC_PROTOCOL_REQUEST_HEADER_SIZE`. -/
def requestHeaderSize : Nat := 6

/-- `WC_PROTOCOL_RESPONSE_LENGTH_OFFSET`. -/
def responseLengthOffset : Nat := 0

/-- `WC_PROTOCOL_RESPONSE_HEADER_SIZE`. -/
def responseHeaderSize : Nat := 2

/-! ## Two-byte integers -/

/-- The two bytes of a big-endian number put together. -/
def joinU16 (high low : UInt8) : UInt16 := (high.toUInt16 <<< 8) ||| low.toUInt16

/-- `wc_protocol_decode_u16` of `data + offset`; `none` when a byte past the end would be read. -/
def decodeU16 (data : Bytes) (offset : Nat) : Option UInt16 :=
  match data[offset]?, data[offset + 1]? with
  | some high, some low => some (joinU16 high low)
  | _, _ => none

/-- `wc_protocol_encode_u16`. -/
def encodeU16 (value : UInt16) : Bytes := [(value >>> 8).toUInt8, value.toUInt8]

/-! ## Requests -/

/-- The six header bytes `wc_protocol_encode_request` fills in. -/
def requestHeader (messageLength type argumentLength : UInt16) : Bytes :=
  encodeU16 messageLength ++ encodeU16 type ++ encodeU16 argumentLength

/-- `wc_protocol_encode_request`: the result, and the output buffer it leaves. -/
def encodeRequest (output : Buffer) (type : Int) (argument : Bytes)
    (headerOk argumentOk : Bool) : Except Errno Unit × Buffer :=
  if (RequestType.ofCode type).isNone then
    (.error .einval, output)
  else if argument.length > uint16Max - requestHeaderSize then
    (.error .emsgsize, output)
  else
    let messageLength := sizeAdd requestHeaderSize argument.length
    if output.length > output.maxSize ∨
        messageLength > sizeSub output.maxSize output.length then
      (.error .emsgsize, output)
    else
      output.appendFrame
        (requestHeader (.ofNat messageLength) (.ofInt type) (.ofNat argument.length)) argument
        headerOk argumentOk

/-- `enum wc_parse_result`. -/
inductive ParseResult where
  | complete
  | needMore
  | invalid
  deriving DecidableEq, Repr

/-- `struct wc_request`: a view into the parsed data. -/
@[ext] structure RequestView where
  type : RequestType
  argument : Bytes
  argumentLength : Nat
  messageLength : Nat
  deriving DecidableEq, Repr

/-- What `wc_protocol_parse_request` returns and stores: its result, `*request` where it was
written, and `*consumed`. -/
structure RequestParse where
  result : ParseResult
  request : Option RequestView
  consumed : Nat
  deriving DecidableEq, Repr

/-- `wc_protocol_parse_request` of `data`; `none` when a byte past the end would be read. -/
def parseRequest (data : Bytes) : Option RequestParse :=
  if data.length < requestHeaderSize then
    some ⟨.needMore, none, 0⟩
  else do
    let requestLength ← decodeU16 data requestLengthOffset
    let requestType ← decodeU16 data requestTypeOffset
    let argumentLength ← decodeU16 data requestArgumentLengthOffset
    match RequestType.ofCode requestType.toNat with
    | none => some ⟨.invalid, none, 0⟩
    | some type =>
        if requestLength.toNat < requestHeaderSize then
          some ⟨.invalid, none, 0⟩
        else if requestLength.toNat ≠ sizeAdd requestHeaderSize argumentLength.toNat then
          some ⟨.invalid, none, 0⟩
        else if data.length < requestLength.toNat then
          some ⟨.needMore, none, 0⟩
        else
          some {
            result := .complete
            request := some {
              type := type
              argument := (data.drop requestHeaderSize).take argumentLength.toNat
              argumentLength := argumentLength.toNat
              messageLength := requestLength.toNat }
            consumed := requestLength.toNat }

/-! ## Responses -/

/-- `wc_protocol_encode_response`: the result, and the output buffer it leaves. -/
def encodeResponse (output : Buffer) (data : Bytes) (headerOk dataOk : Bool) :
    Except Errno Unit × Buffer :=
  if data.length > uint16Max then
    (.error .emsgsize, output)
  else
    let messageLength := sizeAdd responseHeaderSize data.length
    if output.length > output.maxSize ∨
        messageLength > sizeSub output.maxSize output.length then
      (.error .emsgsize, output)
    else
      output.appendFrame (encodeU16 (.ofNat data.length)) data headerOk dataOk

/-- `struct wc_response`: a view into the parsed data. -/
@[ext] structure ResponseView where
  data : Bytes
  dataLength : Nat
  messageLength : Nat
  deriving DecidableEq, Repr

/-- What `wc_protocol_parse_response` returns and stores: its result, and `*response` and
`*consumed` where they were written. -/
structure ResponseParse where
  result : ParseResult
  response : Option ResponseView
  consumed : Option Nat
  deriving DecidableEq, Repr

/-- `wc_protocol_parse_response` of `data`, with pointers for what it stores that may be `NULL`;
`none` when a byte past the end would be read. -/
def parseResponse (data : Span) (responseNull consumedNull : Bool) : Option ResponseParse :=
  if responseNull ∨ consumedNull ∨ (data.isNull ∧ data.size ≠ 0) then
    some ⟨.invalid, none, none⟩
  else if data.size < responseHeaderSize then
    some ⟨.needMore, none, some 0⟩
  else do
    let responseLength ← decodeU16 data.data responseLengthOffset
    let messageLength := sizeAdd responseHeaderSize responseLength.toNat
    if data.size < messageLength then
      some ⟨.needMore, none, some 0⟩
    else
      some {
        result := .complete
        response := some {
          data := (data.data.drop responseHeaderSize).take responseLength.toNat
          dataLength := responseLength.toNat
          messageLength := messageLength }
        consumed := some messageLength }

/-! ## Two-byte integers decode to what was encoded -/

theorem encodeU16_eq (value : UInt16) :
    encodeU16 value = [UInt8.ofNat (value.toNat / 256), UInt8.ofNat (value.toNat % 256)] := by
  simp only [encodeU16, List.cons.injEq, and_true]
  constructor
  · apply UInt8.toNat_inj.mp
    simp [Nat.shiftRight_eq_div_pow]
  · apply UInt8.toNat_inj.mp
    simp

/-- The shift and the disjunction of `wc_protocol_decode_u16` make a base-256 number. -/
theorem joinU16_toNat (high low : UInt8) :
    (joinU16 high low).toNat = high.toNat * 256 + low.toNat := by
  have hh := high.toNat_lt
  have hl := low.toNat_lt
  have hor : high.toNat <<< 8 ||| low.toNat = high.toNat <<< 8 + low.toNat :=
    (Nat.shiftLeft_add_eq_or_of_lt (by omega) _).symm
  simp only [joinU16, UInt16.toNat_or, UInt16.toNat_shiftLeft, UInt8.toNat_toUInt16]
  rw [show ((8 : UInt16).toNat % 16) = 8 from rfl, Nat.mod_eq_of_lt, hor, Nat.shiftLeft_eq]
  rw [Nat.shiftLeft_eq]; omega

/-- Decoding the bytes of a number gives the number. -/
theorem joinU16_encodeU16 (value : UInt16) :
    joinU16 (value >>> 8).toUInt8 value.toUInt8 = value := by
  have henc := encodeU16_eq value
  simp only [encodeU16, List.cons.injEq, and_true] at henc
  apply UInt16.toNat_inj.mp
  have := value.toNat_lt
  rw [joinU16_toNat, henc.1, henc.2]
  simp
  omega

/-- Encoding the number of two bytes gives the bytes. -/
theorem encodeU16_joinU16 (high low : UInt8) : encodeU16 (joinU16 high low) = [high, low] := by
  have hh := high.toNat_lt
  have hl := low.toNat_lt
  rw [encodeU16_eq, joinU16_toNat,
    show (high.toNat * 256 + low.toNat) / 256 = high.toNat by omega,
    show (high.toNat * 256 + low.toNat) % 256 = low.toNat by omega]
  simp

theorem encodeU16_injective : Function.Injective encodeU16 := by
  intro v w h
  simp only [encodeU16, List.cons.injEq, and_true] at h
  rw [← joinU16_encodeU16 v, ← joinU16_encodeU16 w, h.1, h.2]

end Protocol

end WireCommand
