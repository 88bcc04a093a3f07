import WireCommand.Buffer
import WireCommand.Commands.Quote

/-!
# Commands

`wc_command_ls`, `wc_command_pwd` and `wc_command_cat`. Each runs a command line in a child process
and captures what it prints, up to the caller's limit.

The child is the environment's: a `Host` says for each command line whether `popen` gives a pipe,
what can be read from it before the end or an error, and how the child exits, and which allocations
are granted. Everything else is the program's, with the flags `wc_command_run` sets on the way, the
result it fills in through a pointer and a record of the `realloc` calls it makes. In particular the
limit on the result is the limit of the buffer it is captured in (`commandRun_length`).
-/

namespace WireCommand

namespace Commands

/-- What `pclose` returns: -1, or the status of the child. -/
inductive ChildStatus where
  | unknown
  | exited (code : Nat)
  | signaled (signal : Nat)
  deriving DecidableEq

/-- `child_status == -1 || !WIFEXITED(child_status) || WEXITSTATUS(child_status) != 0`. -/
def ChildStatus.failed : ChildStatus → Bool
  | .exited code => code ≠ 0
  | _ => true

/-- What `popen` gives: the bytes `fread` delivers in chunks, whether the stream then ends in an
error, and what `pclose` will return. -/
structure Pipe where
  output : Bytes
  readError : Bool
  status : ChildStatus

end Commands

/-- The environment of the command layer. -/
structure Host where
  libc : Commands.Libc
  /-- `popen`, by command line. -/
  popen : Bytes → Except Errno Commands.Pipe
  /-- Whether the `realloc` for the chunk of this number succeeds, by command line. -/
  reallocOk : Bytes → Nat → Bool
  strerror : Errno → Bytes

/-- What a command gives: its output, or why it has none. -/
abbrev CommandResult := Except Errno Bytes

/-- The outcomes of the `realloc` calls of `wc_buffer_append`: there is one when the bytes fit, and
there are some, and the allocation is too small for them. -/
def Buffer.reallocs (buffer : Buffer) (size : Nat) (reallocOk : Bool) : List Bool :=
  if size ≠ 0 ∧ size ≤ buffer.maxSize - buffer.length ∧ buffer.capacity < buffer.length + size then
    [reallocOk]
  else
    []

namespace Commands

/-! ## The call -/

/-- `WC_COMMAND_READ_SIZE`. -/
def readSize : Nat := 4096

/-- `struct wc_command_result`: where `data` points to, if it is not `NULL`. -/
structure Result where
  data : Option Bytes
  length : Nat
  deriving DecidableEq

/-- The bytes of a result. -/
def Result.bytes (result : Result) : Bytes := (result.data.getD []).take result.length

/-- What the read loop leaves: the buffer, `failure_errno` if `command_failed` is set, and the
outcomes of the `realloc` calls. -/
structure Captured where
  output : Buffer
  failure : Option Errno
  reallocs : List Bool

/-- The read loop of `wc_command_run`, at the chunk of this number. The last read is the first one
that comes back short, so output that fills its last chunk costs one more. -/
def captureLoop (reallocOk : Nat → Bool) (readError : Bool) (chunk : Nat) (unread : Bytes)
    (output : Buffer) : Captured :=
  let bytes := unread.take readSize
  let made := output.reallocs bytes.length (reallocOk chunk)
  match (if bytes.length > 0 then output.append bytes (reallocOk chunk) else .ok output) with
  | .error e => ⟨output, some e, made⟩
  | .ok output =>
      if bytes.length < readSize then
        ⟨output, if readError then some .eio else none, made⟩
      else
        let rest := captureLoop reallocOk readError (chunk + 1) (unread.drop readSize) output
        { rest with reallocs := made ++ rest.reallocs }
termination_by unread.length
decreasing_by
  rename_i hfull
  have hlen : bytes.length = min readSize unread.length := List.length_take
  simp only [List.length_drop, readSize] at hfull hlen ⊢
  omega

/-- What the result becomes when a call succeeds. -/
def Captured.result (captured : Captured) : Result :=
  ⟨if captured.output.capacity = 0 then none else some captured.output.data, captured.output.length⟩

/-- What `wc_command_run` returned, what is in the result its caller gave it, and the outcomes of
its `realloc` calls. -/
structure CommandRun where
  returned : Except Errno Unit
  result : Result
  reallocs : List Bool

/-- What `wc_command_run` does behind its loop. The exit status of the child does not replace an
earlier failure. -/
def Captured.close (captured : Captured) (status : ChildStatus) (result : Result) : CommandRun :=
  let failure :=
    if status.failed then
      match captured.failure with
      | none => some .eio
      | some e => some e
    else
      captured.failure
  match failure with
  | some e => ⟨.error e, result, captured.reallocs⟩
  | none => ⟨.ok (), captured.result, captured.reallocs⟩

/-- `wc_command_run` behind `popen`. -/
def runPipe (pipe : Pipe) (reallocOk : Nat → Bool) (maxResultSize : Nat)
    (h : maxResultSize ≤ sizeMax) (result : Result) : CommandRun :=
  (captureLoop reallocOk pipe.readError 0 pipe.output (.init maxResultSize h)).close pipe.status
    result

/-- `wc_command_run`, for a caller that has cleared the result. -/
def commandRun (host : Host) (command : Bytes) (maxResultSize : Nat) (h : maxResultSize ≤ sizeMax) :
    CommandResult :=
  match host.popen command with
  | .error e => .error e
  | .ok pipe =>
      let run := runPipe pipe (host.reallocOk command) maxResultSize h ⟨none, 0⟩
      run.returned.map fun _ => run.result.bytes

/-- The command line of `wc_command_pwd`. -/
def pwdCommand : Bytes := ['p', 'w', 'd'].map Char.toUInt8 ++ suffix

/-- `wc_command_ls`. -/
def commandLs (host : Host) (argument : Bytes) (maxResultSize : Nat) (h : maxResultSize ≤ sizeMax) :
    CommandResult :=
  match commandBuild host.libc Program.ls.text argument with
  | .error e => .error e
  | .ok command => commandRun host (cString command) maxResultSize h

/-- `wc_command_pwd`: the newline `pwd` prints is not part of the result. -/
def commandPwd (host : Host) (maxResultSize : Nat) (h : maxResultSize ≤ sizeMax) : CommandResult :=
  match commandRun host pwdCommand maxResultSize h with
  | .error e => .error e
  | .ok data => .ok (if data.getLast? = some '\n'.toUInt8 then data.dropLast else data)

/-- `wc_command_cat`: only absolute paths. -/
def commandCat (host : Host) (argument : Bytes) (maxResultSize : Nat)
    (h : maxResultSize ≤ sizeMax) : CommandResult :=
  if argument.head? ≠ some '/'.toUInt8 then
    .error .einval
  else
    match commandBuild host.libc Program.cat.text argument with
    | .error e => .error e
    | .ok command => commandRun host (cString command) maxResultSize h

/-! ## The limit -/

theorem captureLoop_maxSize (reallocOk : Nat → Bool) (readError : Bool) (chunk : Nat)
    (unread : Bytes) (output : Buffer) :
    (captureLoop reallocOk readError chunk unread output).output.maxSize = output.maxSize := by
  have happended : ∀ {bytes : Bytes} {chunk : Nat} {output appended : Buffer},
      (if bytes.length > 0 then output.append bytes (reallocOk chunk) else .ok output) =
        .ok appended → appended.maxSize = output.maxSize := by
    intro bytes chunk output appended h
    split at h
    · exact (Buffer.append_ok h).2.1
    · cases h
      rfl
  fun_induction captureLoop reallocOk readError chunk unread output with
  | case1 => rfl
  | case2 chunk unread output bytes made appended happend => exact happended happend
  | case3 chunk unread output bytes made appended happend _ rest ih =>
      exact ih.trans (happended happend)

/-- The bytes of a result are those of the buffer, which are none without an allocation. -/
theorem Captured.result_bytes (captured : Captured) :
    captured.result.bytes = captured.output.data := by
  unfold result Result.bytes Buffer.length
  split
  · next hnone =>
      have hle := captured.output.length_le
      have hnil : captured.output.data = [] := List.length_eq_zero_iff.mp (by omega)
      simp [hnil]
  · simp

/-- Whatever a call leaves in a cleared result is in the buffer, and so within its limit. -/
theorem runPipe_length (pipe : Pipe) (reallocOk : Nat → Bool) (maxResultSize : Nat)
    (h : maxResultSize ≤ sizeMax) :
    (runPipe pipe reallocOk maxResultSize h ⟨none, 0⟩).result.bytes.length ≤ maxResultSize := by
  have hmax := captureLoop_maxSize reallocOk pipe.readError 0 pipe.output (.init maxResultSize h)
  simp only [runPipe, Captured.close]
  generalize captureLoop reallocOk pipe.readError 0 pipe.output (.init maxResultSize h) = captured
    at hmax
  have hfits := captured.output.length_le_maxSize
  rw [hmax, Buffer.init_maxSize] at hfits
  split
  · exact Nat.zero_le _
  · rw [Captured.result_bytes]
    exact hfits

/-- **No result is longer than the caller allows.** -/
theorem commandRun_length {host : Host} {command result : Bytes} {maxResultSize : Nat}
    {h : maxResultSize ≤ sizeMax} (hrun : commandRun host command maxResultSize h = .ok result) :
    result.length ≤ maxResultSize := by
  cases hpopen : host.popen command with
  | error e =>
      simp only [commandRun, hpopen] at hrun
      cases hrun
  | ok pipe =>
      have hlength := runPipe_length pipe (host.reallocOk command) maxResultSize h
      simp only [commandRun, hpopen] at hrun
      generalize runPipe pipe (host.reallocOk command) maxResultSize h ⟨none, 0⟩ = run at hrun hlength
      cases hreturned : run.returned with
      | error e =>
          rw [hreturned] at hrun
          cases hrun
      | ok =>
          rw [hreturned] at hrun
          cases hrun
          exact hlength

theorem commandLs_length {host : Host} {argument result : Bytes} {maxResultSize : Nat}
    {h : maxResultSize ≤ sizeMax} (hrun : commandLs host argument maxResultSize h = .ok result) :
    result.length ≤ maxResultSize := by
  unfold commandLs at hrun
  split at hrun
  · cases hrun
  · exact commandRun_length hrun

theorem commandPwd_length {host : Host} {result : Bytes} {maxResultSize : Nat}
    {h : maxResultSize ≤ sizeMax} (hrun : commandPwd host maxResultSize h = .ok result) :
    result.length ≤ maxResultSize := by
  unfold commandPwd at hrun
  split at hrun
  · cases hrun
  · next data hdata =>
      have hle := commandRun_length hdata
      cases hrun
      split
      · rw [List.length_dropLast]; omega
      · exact hle

theorem commandCat_length {host : Host} {argument result : Bytes} {maxResultSize : Nat}
    {h : maxResultSize ≤ sizeMax} (hrun : commandCat host argument maxResultSize h = .ok result) :
    result.length ≤ maxResultSize := by
  unfold commandCat at hrun
  split at hrun
  · cases hrun
  · split at hrun
    · cases hrun
    · exact commandRun_length hrun

end Commands

/-- A host on which every command prints a slash and a newline and succeeds. -/
def plainHost : Host where
  libc := Commands.smallLibc
  popen _ := .ok ⟨['/'.toUInt8, '\n'.toUInt8], false, .exited 0⟩
  reallocOk _ _ := true
  strerror _ := []

end WireCommand
