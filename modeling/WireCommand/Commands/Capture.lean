import WireCommand.Commands

/-!
# Capturing the output of a command

The read loop of `wc_command_run` can end in four ways (`CaptureEnd`). Which of them depends on the
whole output of the child and on the calls of `realloc`, and not on how the output falls into chunks.
What the call returns and what it leaves in the result follows from how its loop ended
(`runPipe_exact`).
-/

namespace WireCommand

/-! ## Calls of `realloc` -/

namespace Buffer

theorem eq_of_mem_reallocs {buffer : Buffer} {size : Nat} {reallocOk b : Bool}
    (h : b ∈ buffer.reallocs size reallocOk) : b = reallocOk := by
  unfold reallocs at h
  split at h
  · exact List.mem_singleton.mp h
  · cases h

/-- **An append runs out of memory when a call of `realloc` fails**, and only then. -/
theorem append_enomem_iff (buffer : Buffer) (bytes : Bytes) (reallocOk : Bool) :
    buffer.append bytes reallocOk = .error .enomem ↔
      false ∈ buffer.reallocs bytes.length reallocOk := by
  unfold append reallocs
  by_cases hsize : bytes.length > sizeSub buffer.maxSize buffer.length
  · have hlong : ¬ bytes.length ≤ buffer.maxSize - buffer.length := by
      rw [sizeSub_length] at hsize
      omega
    simp [hsize, hlong]
  · obtain ⟨hsum, hfits⟩ := sizeAdd_length hsize
    have hroom : bytes.length ≤ buffer.maxSize - buffer.length := by omega
    by_cases hzero : bytes.length = 0
    · simp [hzero]
    · simp only [hsize, hzero, dite_false, if_false, ne_eq, not_false_eq_true, hroom, true_and]
      unfold grow
      by_cases hlarge : sizeAdd buffer.length bytes.length ≤ buffer.capacity
      · have hno : ¬ buffer.capacity < buffer.length + bytes.length := by omega
        simp [hlarge, hno]
      · have hyes : buffer.capacity < buffer.length + bytes.length := by omega
        cases reallocOk <;> simp [hlarge, hyes]

theorem notMem_reallocs {buffer : Buffer} {bytes : Bytes} {reallocOk : Bool}
    (h : buffer.append bytes reallocOk ≠ .error .enomem) :
    false ∉ buffer.reallocs bytes.length reallocOk := by
  intro hfailed
  exact h ((append_enomem_iff ..).mpr hfailed)

theorem append_nil (buffer : Buffer) (reallocOk : Bool) :
    buffer.append [] reallocOk = .ok buffer := by
  unfold append
  simp

end Buffer

namespace Commands

/-! ## The read loop -/

/-- Nothing is appended when nothing was read. -/
theorem append_guarded (output : Buffer) (bytes : Bytes) (reallocOk : Bool) :
    (if bytes.length > 0 then output.append bytes reallocOk else .ok output) =
      output.append bytes reallocOk := by
  split
  · rfl
  · next hnone =>
      have hnil : bytes = [] := List.length_eq_zero_iff.mp (Nat.eq_zero_of_not_pos hnone)
      rw [hnil, Buffer.append_nil]

/-- How the read loop ends, for everything the child printed and for the calls of `realloc` that
were made. -/
inductive CaptureEnd (readError : Bool) (maxSize : Nat) (printed : Bytes) (captured : Captured) :
    Prop
  | complete (hfailure : captured.failure = none) (herror : readError = false)
      (hallocs : false ∉ captured.reallocs) (hfits : printed.length ≤ maxSize)
      (hdata : captured.output.data = printed)
  | tooLong (hfailure : captured.failure = some .emsgsize) (hallocs : false ∉ captured.reallocs)
      (hlong : maxSize < printed.length)
  | noMemory (hfailure : captured.failure = some .enomem) (hallocs : false ∈ captured.reallocs)
  | unreadable (hfailure : captured.failure = some .eio) (herror : readError = true)
      (hallocs : false ∉ captured.reallocs) (hfits : printed.length ≤ maxSize)

/-- A chunk in front of the others does not change how the loop ends. -/
theorem CaptureEnd.prepend {readError : Bool} {maxSize : Nat} {printed : Bytes}
    {captured : Captured} (h : CaptureEnd readError maxSize printed captured) {made : List Bool}
    (hmade : false ∉ made) :
    CaptureEnd readError maxSize printed { captured with reallocs := made ++ captured.reallocs } := by
  have hall : false ∉ captured.reallocs → false ∉ made ++ captured.reallocs := by
    intro hrest hmem
    rcases List.mem_append.mp hmem with hfirst | hlater
    · exact hmade hfirst
    · exact hrest hlater
  cases h with
  | complete hfailure herror hallocs hfits hdata =>
      exact .complete hfailure herror (hall hallocs) hfits hdata
  | tooLong hfailure hallocs hlong => exact .tooLong hfailure (hall hallocs) hlong
  | noMemory hfailure hallocs => exact .noMemory hfailure (List.mem_append_right _ hallocs)
  | unreadable hfailure herror hallocs hfits =>
      exact .unreadable hfailure herror (hall hallocs) hfits

/-- **How the read loop ends.** The induction is on what is unread; what has been appended and what
is unread are together what the child printed. -/
theorem captureLoop_end (reallocOk : Nat → Bool) (readError : Bool) (chunk : Nat) (unread : Bytes)
    (output : Buffer) :
    CaptureEnd readError output.maxSize (output.data ++ unread)
      (captureLoop reallocOk readError chunk unread output) := by
  fun_induction captureLoop reallocOk readError chunk unread output with
  | case1 chunk unread output bytes made e happend =>
      rw [dite_eq_ite, append_guarded] at happend
      rcases Buffer.append_error happend with ⟨rfl, hlong⟩ | ⟨rfl, -⟩
      · refine .tooLong rfl ?_ ?_
        · exact Buffer.notMem_reallocs (by simp [bytes, happend])
        · have hpart : bytes.length ≤ unread.length := List.length_take_le' ..
          rw [List.length_append]
          omega
      · exact .noMemory rfl ((Buffer.append_enomem_iff ..).mp happend)
  | case2 chunk unread output bytes made appended happend hshort =>
      rw [dite_eq_ite, append_guarded] at happend
      obtain ⟨hdata, hmax, hfits⟩ := Buffer.append_ok happend
      have hmade : false ∉ made := Buffer.notMem_reallocs (by simp [bytes, happend])
      -- a short chunk is all that was left
      have hall : bytes = unread := by
        apply List.take_of_length_le
        simp only [bytes, List.length_take] at hshort
        omega
      rw [hall] at hdata hfits
      rw [← List.length_append] at hfits
      cases readError with
      | true => exact .unreadable rfl rfl hmade hfits
      | false => exact .complete rfl rfl hmade hfits hdata
  | case3 chunk unread output bytes made appended happend hfull rest ih =>
      rw [dite_eq_ite, append_guarded] at happend
      obtain ⟨hdata, hmax, -⟩ := Buffer.append_ok happend
      have hmade : false ∉ made := Buffer.notMem_reallocs (by simp [bytes, happend])
      rw [hdata, hmax, List.append_assoc, List.take_append_drop] at ih
      exact ih.prepend hmade

/-- The calls of `realloc` are the allocator's. -/
theorem mem_reallocs_captureLoop {reallocOk : Nat → Bool} {readError : Bool} {chunk : Nat}
    {unread : Bytes} {output : Buffer} {b : Bool}
    (h : b ∈ (captureLoop reallocOk readError chunk unread output).reallocs) :
    ∃ k, b = reallocOk k := by
  fun_induction captureLoop reallocOk readError chunk unread output with
  | case1 chunk => exact ⟨chunk, Buffer.eq_of_mem_reallocs h⟩
  | case2 chunk => exact ⟨chunk, Buffer.eq_of_mem_reallocs h⟩
  | case3 chunk unread output bytes made appended happend hfull rest ih =>
      rcases List.mem_append.mp h with hfirst | hlater
      · exact ⟨chunk, Buffer.eq_of_mem_reallocs hfirst⟩
      · exact ih hlater

/-- When memory is to be had no call fails. -/
theorem notMem_reallocs_captureLoop {reallocOk : Nat → Bool} (h : ∀ k, reallocOk k = true)
    (readError : Bool) (chunk : Nat) (unread : Bytes) (output : Buffer) :
    false ∉ (captureLoop reallocOk readError chunk unread output).reallocs := by
  intro hfailed
  obtain ⟨k, hk⟩ := mem_reallocs_captureLoop hfailed
  rw [h k] at hk
  cases hk

/-- How the loop of a call ends, which starts with an empty buffer. -/
theorem captureLoop_init_end (reallocOk : Nat → Bool) (readError : Bool) (printed : Bytes)
    (maxResultSize : Nat) (h : maxResultSize ≤ sizeMax) :
    CaptureEnd readError maxResultSize printed
      (captureLoop reallocOk readError 0 printed (.init maxResultSize h)) := by
  have hend := captureLoop_end reallocOk readError 0 printed (.init maxResultSize h)
  rw [Buffer.init_data, Buffer.init_maxSize, List.nil_append] at hend
  exact hend

/-! ## The whole call -/

/-- A failure of the loop is the failure of the call. -/
theorem Captured.close_of_failure {captured : Captured} {e : Errno}
    (hfailure : captured.failure = some e) (status : ChildStatus) (result : Result) :
    captured.close status result = ⟨.error e, result, captured.reallocs⟩ := by
  unfold close
  rw [hfailure]
  cases status.failed <;> rfl

/-- Without one the call fails if the child did. -/
theorem Captured.close_of_status {captured : Captured} {status : ChildStatus}
    (hfailure : captured.failure = none) (hstatus : status ≠ .exited 0) (result : Result) :
    captured.close status result = ⟨.error .eio, result, captured.reallocs⟩ := by
  have hfailed : status.failed = true := by
    cases status <;> simp_all [ChildStatus.failed]
  unfold close
  rw [hfailure, hfailed]
  rfl

theorem Captured.close_of_ok {captured : Captured} {status : ChildStatus}
    (hfailure : captured.failure = none) (hstatus : status = .exited 0) (result : Result) :
    captured.close status result = ⟨.ok (), captured.result, captured.reallocs⟩ := by
  unfold close
  rw [hfailure, hstatus]
  rfl

theorem Captured.close_reallocs (captured : Captured) (status : ChildStatus) (result : Result) :
    (captured.close status result).reallocs = captured.reallocs := by
  cases hfailure : captured.failure with
  | some e => rw [close_of_failure hfailure]
  | none =>
      by_cases hstatus : status = .exited 0
      · rw [close_of_ok hfailure hstatus]
      · rw [close_of_status hfailure hstatus]

/-- **The output of a command is captured whole or not at all.** The call succeeds if and only if the
stream had no error, no `realloc` failed, the child exited with status 0 and everything it printed
is within the limit; and then the result is everything it printed. A call that fails leaves the
result alone, and it fails with `EMSGSIZE` whenever the output passed the limit while memory was
still to be had, whatever becomes of the child. -/
theorem runPipe_exact (pipe : Pipe) (reallocOk : Nat → Bool) (maxResultSize : Nat)
    (h : maxResultSize ≤ sizeMax) (result : Result) :
    let run := runPipe pipe reallocOk maxResultSize h result
    (run.returned = .ok () ↔
      pipe.readError = false ∧ false ∉ run.reallocs ∧ pipe.status = .exited 0 ∧
        pipe.output.length ≤ maxResultSize) ∧
    (run.returned = .ok () → run.result.bytes = pipe.output ∧
      run.result.length = pipe.output.length) ∧
    (run.returned ≠ .ok () → run.result = result) ∧
    (run.returned = .error .emsgsize ↔
      maxResultSize < pipe.output.length ∧ false ∉ run.reallocs) := by
  have hend := captureLoop_init_end reallocOk pipe.readError pipe.output maxResultSize h
  unfold runPipe
  generalize captureLoop reallocOk pipe.readError 0 pipe.output (.init maxResultSize h) = captured
    at hend
  cases hend with
  | complete hfailure herror hallocs hfits hdata =>
      by_cases hstatus : pipe.status = .exited 0
      · rw [Captured.close_of_ok hfailure hstatus]
        have hbytes : captured.result.bytes = pipe.output := captured.result_bytes.trans hdata
        have hlength : captured.result.length = pipe.output.length := congrArg List.length hdata
        simp [herror, hallocs, hstatus, hfits, hbytes, hlength]
      · rw [Captured.close_of_status hfailure hstatus]
        simp [hstatus, Nat.not_lt.mpr hfits]
  | tooLong hfailure hallocs hlong =>
      rw [Captured.close_of_failure hfailure]
      simp [hallocs, hlong, Nat.not_le.mpr hlong]
  | noMemory hfailure hallocs =>
      rw [Captured.close_of_failure hfailure]
      simp [hallocs]
  | unreadable hfailure herror hallocs hfits =>
      rw [Captured.close_of_failure hfailure]
      simp [herror, Nat.not_lt.mpr hfits]

/-- Two bytes into a result of at most one, from a child that is then killed. -/
theorem runPipe_exact_killed :
    (runPipe ⟨[0, 47], true, .signaled 13⟩ (fun _ => true) 1 (by decide) ⟨none, 0⟩).returned =
        .error .emsgsize ∧
      (runPipe ⟨[0, 47], true, .signaled 13⟩ (fun _ => true) 1 (by decide) ⟨none, 0⟩).result =
        ⟨none, 0⟩ := by
  obtain ⟨-, -, huntouched, hlimit⟩ :=
    runPipe_exact ⟨[0, 47], true, .signaled 13⟩ (fun _ => true) 1 (by decide) ⟨none, 0⟩
  have hallocs : false ∉ (runPipe ⟨[0, 47], true, .signaled 13⟩ (fun _ => true) 1 (by decide)
      ⟨none, 0⟩).reallocs := by
    rw [runPipe, Captured.close_reallocs]
    exact notMem_reallocs_captureLoop (fun _ => rfl) true 0 [0, 47] _
  have hreturned := hlimit.mpr ⟨by decide, hallocs⟩
  exact ⟨hreturned, huntouched (by simp [hreturned])⟩

/-! ## The working directory -/

/-- What `wc_command_run` returns when memory is to be had: the limit comes before the error of the
stream, and both come before the exit status. -/
theorem commandRun_of_memory {host : Host} {command : Bytes} {pipe : Pipe} {maxResultSize : Nat}
    {h : maxResultSize ≤ sizeMax} (hpopen : host.popen command = .ok pipe)
    (hrealloc : ∀ k, host.reallocOk command k = true) :
    commandRun host command maxResultSize h =
      if maxResultSize < pipe.output.length then .error .emsgsize
      else if pipe.readError then .error .eio
      else if pipe.status = .exited 0 then .ok pipe.output
      else .error .eio := by
  have hend := captureLoop_init_end (host.reallocOk command) pipe.readError pipe.output
    maxResultSize h
  have hallocs := notMem_reallocs_captureLoop hrealloc pipe.readError 0 pipe.output
    (.init maxResultSize h)
  simp only [commandRun, hpopen, runPipe]
  generalize captureLoop (host.reallocOk command) pipe.readError 0 pipe.output
    (.init maxResultSize h) = captured at hend hallocs
  cases hend with
  | complete hfailure herror _ hfits hdata =>
      rw [if_neg (Nat.not_lt.mpr hfits), if_neg (by simp [herror])]
      by_cases hstatus : pipe.status = .exited 0
      · rw [Captured.close_of_ok hfailure hstatus, if_pos hstatus, captured.result_bytes, hdata]
        rfl
      · rw [Captured.close_of_status hfailure hstatus, if_neg hstatus]
        rfl
  | tooLong hfailure _ hlong =>
      rw [Captured.close_of_failure hfailure, if_pos hlong]
      rfl
  | noMemory _ hfailed => exact absurd hfailed hallocs
  | unreadable hfailure herror _ hfits =>
      rw [Captured.close_of_failure hfailure, if_neg (Nat.not_lt.mpr hfits), if_pos herror]
      rfl

/-- What `wc_command_pwd` returns then: the newline that is not part of the result counts towards
the limit. -/
theorem commandPwd_of_fair (host : Host) (path : Bytes) (maxResultSize : Nat)
    (h : maxResultSize ≤ sizeMax)
    (hpopen : host.popen pwdCommand = .ok ⟨path ++ ['\n'.toUInt8], false, .exited 0⟩)
    (hrealloc : ∀ k, host.reallocOk pwdCommand k = true) :
    commandPwd host maxResultSize h =
      if path.length < maxResultSize then .ok path else .error .emsgsize := by
  unfold commandPwd
  rw [commandRun_of_memory hpopen hrealloc, List.length_append, List.length_singleton]
  by_cases hlt : path.length < maxResultSize
  · have hfits : ¬ maxResultSize < path.length + 1 := by omega
    simp [hlt, hfits]
  · have hlong : maxResultSize < path.length + 1 := by omega
    simp [hlt, hlong]

/-- **The limit of `PWD` is one byte short.** The path is returned if and only if it is no longer
than the result may be, and `EMSGSIZE` otherwise, for every path but those that are exactly as long
as the result may be. -/
theorem commandPwd_limit (host : Host) (path : Bytes) (maxResultSize : Nat)
    (h : maxResultSize ≤ sizeMax)
    (hpopen : host.popen pwdCommand = .ok ⟨path ++ ['\n'.toUInt8], false, .exited 0⟩)
    (hrealloc : ∀ k, host.reallocOk pwdCommand k = true) :
    commandPwd host maxResultSize h =
        (if path.length ≤ maxResultSize then .ok path else .error .emsgsize) ↔
      path.length ≠ maxResultSize := by
  rw [commandPwd_of_fair host path maxResultSize h hpopen hrealloc]
  constructor
  · intro heq hlen
    rw [if_neg (by omega), if_pos (by omega)] at heq
    cases heq
  · intro hne
    by_cases hlt : path.length < maxResultSize
    · rw [if_pos hlt, if_pos (by omega)]
    · rw [if_neg hlt, if_neg (by omega)]

/-- The root directory, in a result of up to two bytes. -/
theorem commandPwd_limit_root :
    commandPwd plainHost 2 (by decide) = .ok ['/'.toUInt8] :=
  (commandPwd_limit plainHost ['/'.toUInt8] 2 (by decide) rfl fun _ => rfl).mpr (by decide)

/-- The root directory does not fit into a result of one byte. -/
theorem commandPwd_root_refused :
    plainHost.popen pwdCommand = .ok ⟨['/'.toUInt8] ++ ['\n'.toUInt8], false, .exited 0⟩ ∧
      commandPwd plainHost 1 (by decide) = .error .emsgsize ∧ ['/'.toUInt8].length ≤ 1 :=
  ⟨rfl, commandPwd_of_fair plainHost ['/'.toUInt8] 1 (by decide) rfl fun _ => rfl, by decide⟩

end Commands

end WireCommand
