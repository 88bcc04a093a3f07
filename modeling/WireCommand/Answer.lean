import WireCommand.Commands.Capture
import WireCommand.Protocol.Encoding
import WireCommand.Threaded.Session
import WireCommand.Uds.Functions

/-!
# Every request is answered

Whatever a request asks for and whatever becomes of its command, a server with an empty output
buffer puts one whole response into it. The buffer has room for the longest response there is, the
command layer never gives more than that, and a failed command is answered with a text that is
shorter; what is left to fail is the allocation of the buffer (`Answered`).

What the response says is decided by `runCommand`, and in the end by the child: `childResult` is
what a child comes to, and `Spawns` says which command line a request is run with, if with any.
-/

namespace WireCommand

open Commands Protocol

variable {host : Host} {r : Request}

namespace Response

/-! ## What a command comes to -/

/-- The command line a request is run with. -/
def Spawns (host : Host) (r : Request) (command : Bytes) : Prop :=
  match r.type with
  | .ls => ∃ built, commandBuild host.libc Program.ls.text r.argument = .ok built ∧
      command = cString built
  | .pwd => r.argument = [] ∧ command = pwdCommand
  | .cat => r.argument.head? = some '/'.toUInt8 ∧
      ∃ built, commandBuild host.libc Program.cat.text r.argument = .ok built ∧
        command = cString built

/-- A request that is refused before anything is run: `LS` and `CAT` without a path or with one
that no file can have, `CAT` with a relative path, and `PWD` with an argument. -/
def Refused (r : Request) : Prop :=
  match r.type with
  | .ls => r.argument = [] ∨ 0 ∈ r.argument
  | .pwd => r.argument ≠ []
  | .cat => r.argument.head? ≠ some '/'.toUInt8 ∨ 0 ∈ r.argument

/-- What of the output is the result: not the newline at the end of what `pwd` prints. -/
def trim : RequestType → Bytes → Bytes
  | .pwd, data => if data.getLast? = some '\n'.toUInt8 then data.dropLast else data
  | _, data => data

/-- What a child comes to, when it was started and memory is to be had. -/
def childResult (type : RequestType) (child : Pipe) : CommandResult :=
  if 65535 < child.output.length then .error .emsgsize
  else if child.readError then .error .eio
  else if child.status = .exited 0 then .ok (trim type child.output)
  else .error .eio

theorem commandBuild_refused (libc : Libc) (program : Bytes) {argument : Bytes}
    (h : argument = [] ∨ 0 ∈ argument) : commandBuild libc program argument = .error .einval := by
  have hquote : quoteArgument libc argument = .error .einval := by
    unfold quoteArgument
    rw [if_pos]
    rcases h with rfl | hnul
    · exact .inl rfl
    · exact .inr hnul
  unfold commandBuild
  rw [hquote]

theorem runCommand_refused (host : Host) (h : Refused r) :
    runCommand host r.type r.argument = .error .einval := by
  unfold Refused at h
  unfold runCommand
  cases htype : r.type with
  | ls =>
      rw [htype] at h
      simp only [commandLs, commandBuild_refused _ _ h]
  | pwd =>
      rw [htype] at h
      exact if_pos (by simpa using h)
  | cat =>
      rw [htype] at h
      simp only [commandCat]
      split
      · rfl
      · next hslash =>
          rcases h with hrelative | hnul
          · exact absurd hrelative hslash
          · rw [commandBuild_refused _ _ (.inr hnul)]

/-- A command line that is run decides what the command comes to. -/
theorem runCommand_spawned {command : Bytes} (h : Spawns host r command) :
    runCommand host r.type r.argument =
      (commandRun host command uint16Max uint16Max_le_sizeMax).map (trim r.type) := by
  unfold Spawns at h
  unfold runCommand
  cases htype : r.type with
  | ls =>
      rw [htype] at h
      obtain ⟨built, hbuilt, rfl⟩ := h
      simp only [commandLs, hbuilt]
      cases commandRun host (cString built) uint16Max uint16Max_le_sizeMax <;> rfl
  | pwd =>
      rw [htype] at h
      obtain ⟨hargument, rfl⟩ := h
      simp only [hargument, List.length_nil, ne_eq, not_true_eq_false, if_false, commandPwd]
      cases commandRun host pwdCommand uint16Max uint16Max_le_sizeMax <;> rfl
  | cat =>
      rw [htype] at h
      obtain ⟨hslash, built, hbuilt, rfl⟩ := h
      simp only [commandCat, hslash, hbuilt, ne_eq, not_true_eq_false, if_false]
      cases commandRun host (cString built) uint16Max uint16Max_le_sizeMax <;> rfl

/-- `popen` fails. -/
theorem runCommand_popen_error {command : Bytes} {e : Errno} (h : Spawns host r command)
    (hpopen : host.popen command = .error e) : runCommand host r.type r.argument = .error e := by
  rw [runCommand_spawned h]
  simp only [commandRun, hpopen, Except.map]

/-- A child runs. -/
theorem runCommand_child {command : Bytes} {child : Pipe} (h : Spawns host r command)
    (hpopen : host.popen command = .ok child)
    (hrealloc : ∀ k, host.reallocOk command k = true) :
    runCommand host r.type r.argument = childResult r.type child := by
  rw [runCommand_spawned h, commandRun_of_memory hpopen hrealloc]
  unfold childResult uint16Max
  by_cases hlong : 65535 < child.output.length
  · simp only [hlong, if_true, Except.map]
  · cases child.readError with
    | true => simp only [hlong, if_false, if_true, Except.map]
    | false =>
        by_cases hstatus : child.status = .exited 0
        · simp only [hlong, hstatus, if_false, if_true, Bool.false_eq_true, Except.map]
        · simp only [hlong, hstatus, if_false, Bool.false_eq_true, Except.map]

/-! ## The response -/

/-- What a response to a request may carry: the result of the command, or the text for its error,
cut to 255 bytes. -/
def Carries (host : Host) (r : Request) (data : Bytes) : Prop :=
  match runCommand host r.type r.argument with
  | .ok result => data = result ∧ result.length ≤ 65535
  | .error e => data = (errorHead ++ cString (host.strerror e)).take 255

/-- What an encoder makes of an empty output buffer. -/
structure Answered (host : Host) (r : Request) (env : Env)
    (encoded : Except Errno Unit × Buffer) : Prop where
  /-- One response, and nothing else, that the parser accepts. -/
  framed : encoded.1 = .ok () → ∃ data, Carries host r data ∧
    encoded.2.data = responseFrame data ∧ DecodesResponse data encoded.2.data
  /-- It fails for want of memory alone, and leaves nothing behind. -/
  failed : ∀ e, encoded.1 = .error e →
    e = .enomem ∧ ¬ (env.headerOk = true ∧ env.dataOk = true) ∧ encoded.2.data = []

theorem payload_carries (host : Host) (r : Request) :
    Carries host r (payload host r.type r.argument) := by
  unfold Carries payload
  cases hrun : runCommand host r.type r.argument with
  | ok data => exact ⟨rfl, runCommand_length hrun⟩
  | error e => rfl

/-- **The encoder answers.** -/
theorem encodeCommandResponse_answered (host : Host) (r : Request) {output : Buffer}
    (hempty : output.data = []) (hlimit : output.maxSize = outputLimit) {env : Env}
    (hformat : env.formatOk = true) :
    Answered host r env (encodeCommandResponse host output r.type r.argument env) := by
  have hencode : encodeCommandResponse host output r.type r.argument env =
      encodeResponse output (payload host r.type r.argument) env.headerOk env.dataOk := by
    unfold encodeCommandResponse encodeResult payload
    cases runCommand host r.type r.argument with
    | ok data => rfl
    | error e => simp only [hformat, if_true]
  have hlength := payload_length host r.type r.argument
  have hencodable : ResponseEncodable output (payload host r.type r.argument) := by
    refine ⟨hlength, ?_⟩
    rw [hlimit, Buffer.length, hempty, outputLimit, responseHeaderSize, List.length_nil]
    omega
  have hall := encodeResponse_allOrNothing output (payload host r.type r.argument) env.headerOk
    env.dataOk
  rw [← hencode] at hall
  constructor
  · intro hok
    obtain ⟨hdata, -⟩ := encodeCommandResponse_ok (Prod.ext hok rfl)
    rw [hempty, List.nil_append] at hdata
    refine ⟨_, payload_carries host r, hdata, ?_⟩
    rw [hdata]
    exact decodesResponse_frame hlength
  · intro e he
    obtain ⟨rfl, hmemory⟩ := hall.enomem hencodable e he
    exact ⟨rfl, hmemory, (hall.restored _ he).1.trans hempty⟩

/-- **Every request is answered, once, whatever becomes of its command.** Each server's encoder, given
an empty output buffer, appends one response that the parser accepts, or fails because the buffer
could not be allocated. It carries the result of the command or the text for its error. A request
that cannot be run is one with an `EINVAL`; otherwise it is the child that decides, and output
beyond the limit is an `EMSGSIZE`. -/
theorem every_request_answered (host : Host) (r : Request) (output : Buffer)
    (hempty : output.data = []) (hlimit : output.maxSize = 65537) (env : Env)
    (hformat : env.formatOk = true) :
    (∀ fd conn,
      Answered host r env (Uds.encodeCommandResponse host output (Uds.queued fd conn r) env)) ∧
    Answered host r env (Threaded.tcpEncodeResponse host output r env) ∧
    Answered host r env (Threaded.threadedUdsEncodeResponse host output r env) ∧
    (Refused r → runCommand host r.type r.argument = .error .einval) ∧
    (∀ command e, Spawns host r command → host.popen command = .error e →
      runCommand host r.type r.argument = .error e) ∧
    ∀ command child, Spawns host r command → host.popen command = .ok child →
      (∀ k, host.reallocOk command k = true) →
      runCommand host r.type r.argument = childResult r.type child := by
  have hanswered := encodeCommandResponse_answered host r hempty hlimit hformat
  refine ⟨fun _ _ => hanswered, hanswered, hanswered, runCommand_refused host, ?_, ?_⟩
  · intro command e hspawns hpopen
    exact runCommand_popen_error hspawns hpopen
  · intro command child hspawns hpopen hrealloc
    exact runCommand_child hspawns hpopen hrealloc

/-- A `CAT` of a relative path. -/
theorem every_request_answered_cat :
    let r : Request := ⟨.cat, ['x'.toUInt8], by decide⟩
    let output : Buffer := .init 65537 (by decide)
    Answered plainHost r .fair (Threaded.tcpEncodeResponse plainHost output r .fair) ∧
      runCommand plainHost r.type r.argument = .error .einval := by
  intro r output
  obtain ⟨-, hanswered, -, hrefused, -⟩ :=
    every_request_answered plainHost r output rfl rfl .fair rfl
  exact ⟨hanswered, hrefused (.inl (by decide))⟩

end Response

end WireCommand
