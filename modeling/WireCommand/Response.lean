import WireCommand.Commands
import WireCommand.Protocol.Language
import WireCommand.Protocol.Responses

/-!
# Responses

How a server turns a request into a response: it runs the command and encodes what it gave, or, the
response format having no status field, an error text. The three servers do this with the same code
(`wc_uds_run_command`, `wc_tcp_run_command`, `wc_threaded_uds_run_command` and their encoders); it
stands here once, and each server names its own.

The response to a request is a function of the host and the request, `respond`, and the encoder
appends exactly that (`encodeCommandResponse_ok`), or fails for want of memory or a formatted text
(`encodeCommandResponse_of_room`).
-/

namespace WireCommand

open Commands Protocol

namespace Response

/-- The dispatch of a request; the three types are all there are. -/
def runCommand (host : Host) (type : RequestType) (argument : Bytes) : CommandResult :=
  match type with
  | .ls => commandLs host argument uint16Max uint16Max_le_sizeMax
  | .pwd =>
      if argument.length ≠ 0 then .error .einval else commandPwd host uint16Max uint16Max_le_sizeMax
  | .cat => commandCat host argument uint16Max uint16Max_le_sizeMax

/-- `sizeof(error_text)`. -/
def errorTextSize : Nat := 256

/-- `"ERROR: "`. -/
def errorHead : Bytes := ['E', 'R', 'R', 'O', 'R', ':', ' '].map Char.toUInt8

/-- The text sent for a failed command, cut to what `error_text` holds. -/
def errorText (host : Host) (e : Errno) : Bytes :=
  (errorHead ++ cString (host.strerror e)).take (errorTextSize - 1)

/-- What can go wrong while a response is encoded: `snprintf` and the two `realloc` calls. -/
structure Env where
  formatOk : Bool
  headerOk : Bool
  dataOk : Bool
  deriving DecidableEq

/-- Nothing goes wrong. -/
def Env.fair : Env := ⟨true, true, true⟩

/-- The servers' response encoder behind the call that runs the command: the result, and the output
buffer it leaves. -/
def encodeResult (host : Host) (output : Buffer) (result : CommandResult) (env : Env) :
    Except Errno Unit × Buffer :=
  match result with
  | .ok data => encodeResponse output data env.headerOk env.dataOk
  | .error e =>
      if env.formatOk then
        encodeResponse output (errorText host e) env.headerOk env.dataOk
      else
        (.error .eio, output)

/-- The response to a command. -/
def encodeCommandResponse (host : Host) (output : Buffer) (type : RequestType) (argument : Bytes)
    (env : Env) : Except Errno Unit × Buffer :=
  encodeResult host output (runCommand host type argument) env

/-! ## The response to a request -/

/-- What a response carries. -/
def payload (host : Host) (type : RequestType) (argument : Bytes) : Bytes :=
  match runCommand host type argument with
  | .ok data => data
  | .error e => errorText host e

theorem runCommand_length {host : Host} {type : RequestType} {argument data : Bytes}
    (h : runCommand host type argument = .ok data) : data.length ≤ uint16Max := by
  cases type with
  | ls => exact commandLs_length h
  | pwd =>
      simp only [runCommand] at h
      split at h
      · cases h
      · exact commandPwd_length h
  | cat => exact commandCat_length h

theorem errorText_length (host : Host) (e : Errno) : (errorText host e).length ≤ uint16Max := by
  simp only [errorText, errorTextSize, uint16Max, List.length_take]
  omega

theorem payload_length (host : Host) (type : RequestType) (argument : Bytes) :
    (payload host type argument).length ≤ uint16Max := by
  unfold payload
  split
  · next h => exact runCommand_length h
  · exact errorText_length host _

/-- A response on the wire. -/
def frame (host : Host) (type : RequestType) (argument : Bytes) : Bytes :=
  encodeU16 (.ofNat (payload host type argument).length) ++ payload host type argument

/-- The largest response, `UINT16_MAX + WC_PROTOCOL_RESPONSE_HEADER_SIZE`, which is also every
server's limit for its output buffers. -/
def outputLimit : Nat := uint16Max + responseHeaderSize

theorem outputLimit_le_sizeMax : outputLimit ≤ sizeMax := by decide

theorem frame_ne_nil (host : Host) (type : RequestType) (argument : Bytes) :
    frame host type argument ≠ [] := by
  simp [frame, encodeU16]

/-! ## The encoder -/

/-- **The encoder appends the response to the request.** -/
theorem encodeCommandResponse_ok {host : Host} {output output' : Buffer} {type : RequestType}
    {argument : Bytes} {env : Env}
    (h : encodeCommandResponse host output type argument env = (.ok (), output')) :
    output'.data = output.data ++ frame host type argument ∧ output'.maxSize = output.maxSize := by
  unfold encodeCommandResponse encodeResult at h
  unfold frame payload
  split at h
  · obtain ⟨hdata, hmax, -⟩ := encodeResponse_ok h
    exact ⟨hdata, hmax⟩
  · split at h
    · obtain ⟨hdata, hmax, -⟩ := encodeResponse_ok h
      exact ⟨hdata, hmax⟩
    · cases h

/-- Encoding fails for want of room, of memory or of a formatted text. -/
theorem encodeCommandResponse_error {host : Host} {output output' : Buffer} {type : RequestType}
    {argument : Bytes} {env : Env} {e : Errno}
    (h : encodeCommandResponse host output type argument env = (.error e, output')) :
    e = .emsgsize ∨ e = .enomem ∨ e = .eio := by
  have hone : ∀ {data : Bytes},
      encodeResponse output data env.headerOk env.dataOk = (.error e, output') →
      e = .emsgsize ∨ e = .enomem ∨ e = .eio := by
    intro data hencode
    unfold encodeResponse at hencode
    split at hencode
    · cases hencode; exact .inl rfl
    · simp only at hencode
      split at hencode
      · cases hencode; exact .inl rfl
      · rcases Buffer.appendFrame_error hencode with he | he
        · exact .inl he
        · exact .inr (.inl he)
  unfold encodeCommandResponse encodeResult at h
  split at h
  · exact hone h
  · split at h
    · exact hone h
    · cases h; exact .inr (.inr rfl)

/-- The limit of the output buffer stays, whatever becomes of the response. -/
theorem encodeResult_maxSize (host : Host) (output : Buffer) (result : CommandResult) (env : Env) :
    (encodeResult host output result env).2.maxSize = output.maxSize := by
  have hone : ∀ data : Bytes,
      (encodeResponse output data env.headerOk env.dataOk).2.maxSize = output.maxSize := by
    intro data
    unfold encodeResponse
    split
    · rfl
    · simp only
      split
      · rfl
      · exact Buffer.appendFrame_maxSize ..
  unfold encodeResult
  split
  · exact hone _
  · split
    · exact hone _
    · rfl

/-- **An empty output buffer takes any response**, if nothing goes wrong on the way. -/
theorem encodeCommandResponse_of_room (host : Host) {output : Buffer} (type : RequestType)
    (argument : Bytes) (hempty : output.data = []) (hmax : output.maxSize = outputLimit) :
    ∃ output', encodeCommandResponse host output type argument .fair = (.ok (), output') := by
  have hfits : ∀ data : Bytes, data.length ≤ uint16Max →
      ∃ output', encodeResponse output data true true = (.ok (), output') := by
    intro data hdata
    apply encodeResponse_of_fits hdata
    rw [hempty, hmax, List.length_nil, outputLimit]
    omega
  unfold encodeCommandResponse encodeResult
  split
  · next data hrun => exact hfits data (runCommand_length hrun)
  · next e hrun => exact hfits _ (errorText_length host e)

end Response

/-- The response to a request, on the wire. -/
def respond (host : Host) (r : Request) : Bytes := Response.frame host r.type r.argument

theorem respond_ne_nil (host : Host) (r : Request) : respond host r ≠ [] :=
  Response.frame_ne_nil host r.type r.argument

end WireCommand
