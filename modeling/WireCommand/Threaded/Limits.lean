import WireCommand.Threaded.Session

/-!
# The limits of a worker's buffers

A worker's buffers keep the limits they were given (`within_of_reachable`). With the invariant of
the session this leaves room for every read: a worker reads only when its input asks for more, and
such an input is shorter than the longest frame (`hasRoom_of_needMore`).
-/

namespace WireCommand

open Protocol

/-- There is room for a read of up to `readSize` bytes, and only the allocator can be in its way. -/
structure HasRoom (input : Buffer) (readSize : Nat) : Prop where
  length_lt : input.data.length < 65535
  readSize_ne : input.nextReadSize readSize ≠ 0
  append : ∀ bytes reallocOk e, bytes.length ≤ input.nextReadSize readSize →
    input.append bytes reallocOk = .error e → e = .enomem ∧ reallocOk = false

/-- **An input that asks for more has room for it**, if its limit is that of a request. -/
theorem hasRoom_of_needMore {input : Buffer} {readSize : Nat} (hsize : 0 < readSize)
    (hmax : input.maxSize = uint16Max) (hmore : requestVerdict input.data = .needMore) :
    HasRoom input readSize := by
  have hshort := length_lt_of_needMore hmore
  have hsizeEq := input.nextReadSize_eq readSize
  rw [hmax] at hsizeEq
  refine ⟨hshort, by omega, ?_⟩
  intro bytes reallocOk e hbytes happend
  rcases Buffer.append_error happend with ⟨-, hbig⟩ | henomem
  · omega
  · exact henomem

namespace Threaded.Session

variable {transport : Transport} {config : Config} {host : Host} {s s' : State} {e : Event}

/-- The buffers of a worker have the limits of its server. -/
structure State.Within (config : Config) (s : State) : Prop where
  input : s.input.maxSize = config.inputLimit
  output : s.output.maxSize = config.outputLimit

theorem processRequest_maxSize {input output : Buffer} {env : Response.Env}
    {result : Except Errno Unit}
    (h : transport.processRequest host s.input s.output env = (result, input, output)) :
    input.maxSize = s.input.maxSize ∧ output.maxSize = s.output.maxSize := by
  rw [transport.processRequest_eq, processRequest] at h
  split at h
  · cases h; exact ⟨rfl, rfl⟩
  · cases h; exact ⟨rfl, rfl⟩
  · next request consumed hparse =>
      have hencoded := Response.encodeResult_maxSize host s.output (runCommand host request) env
      rw [show Response.encodeResult host s.output (runCommand host request) env =
        encodeResponse runCommand host s.output request env from rfl] at hencoded
      split at h
      · next hencode =>
          rw [hencode] at hencoded
          cases h
          exact ⟨rfl, hencoded⟩
      · next hencode =>
          rw [hencode] at hencoded
          split at h
          · cases h
            exact ⟨rfl, hencoded⟩
          · next hconsume =>
              cases h
              exact ⟨(Buffer.consume_ok hconsume).2.1, hencoded⟩

theorem readClient_within {outcome : ReadOutcome} {reallocOk : Bool} {exit : Option Exit}
    (hs : s.Within config) (h : readClient config s outcome reallocOk = some (exit, s')) :
    s'.Within config := by
  unfold readClient at h
  split at h
  · cases h; exact hs
  · cases outcome with
    | eof => cases h; exact hs
    | interrupted => cases h; exact hs
    | wouldBlock => cases h; exact hs
    | failed => cases h; exact hs
    | data bytes =>
        simp only at h
        split at h
        · split at h
          · cases h; exact ⟨hs.input, hs.output⟩
          · next input happend =>
              cases h
              exact ⟨(Buffer.append_ok happend).2.1.trans hs.input, hs.output⟩
        · cases h

theorem writeClient_within {outcome : SendOutcome} {exit : Option Exit} (hs : s.Within config)
    (h : writeClient s outcome = some (exit, s')) : s'.Within config := by
  cases outcome with
  | interrupted => cases h; exact hs
  | wouldBlock => cases h; exact hs
  | failed => cases h; exact hs
  | sent count =>
      simp only [writeClient] at h
      split at h
      · split at h
        · cases h; exact ⟨hs.input, hs.output⟩
        · next output hconsume =>
            cases h
            exact ⟨hs.input, (Buffer.consume_ok hconsume).2.1.trans hs.output⟩
      · cases h

theorem continueWith_within {next : Pc} {result : Option Exit × State}
    (h : result.2.Within config) : (continueWith next result).Within config := by
  obtain ⟨exit, s⟩ := result
  cases exit <;> exact ⟨h.input, h.output⟩

/-- No step changes a limit. -/
theorem Move.within (hmove : Move transport host s e s') (hs : s.Within transport.config) :
    s'.Within transport.config := by
  cases hmove with
  | refused _ _ hprocess =>
      obtain ⟨hinput, houtput⟩ := processRequest_maxSize hprocess
      exact ⟨hinput.trans hs.input, houtput.trans hs.output⟩
  | processed _ _ hprocess =>
      obtain ⟨hinput, houtput⟩ := processRequest_maxSize hprocess
      exact ⟨hinput.trans hs.input, houtput.trans hs.output⟩
  | read _ hread => exact continueWith_within (readClient_within hs hread)
  | send _ hsend => exact continueWith_within (writeClient_within hs hsend)
  | _ => exact ⟨hs.input, hs.output⟩

theorem within_inductive (transport : Transport) (host : Host) :
    (workerMain transport host).Inductive (State.Within transport.config) where
  init := by
    rintro s rfl
    exact ⟨rfl, rfl⟩
  step _ _ _ hs hstep := (step_move hstep).within hs

theorem within_of_reachable (hs : (transport.worker host).Reachable s) :
    s.Within transport.config := by
  rw [worker_eq] at hs
  exact (within_inductive transport host).reachable hs

/-- A worker that is about to read has room. -/
theorem hasRoom_of_reading (transport : Transport) (hs : (transport.worker host).Reachable s)
    {revents : Revents} (hpc : s.pc = .reading revents) :
    HasRoom s.input transport.config.readSize := by
  have hidle := (valid_of_reachable hs).pc
  rw [hpc] at hidle
  have hinput := (within_of_reachable hs).input
  cases transport with
  | tcp => exact hasRoom_of_needMore (by decide) hinput hidle.2
  | threadedUds => exact hasRoom_of_needMore (by decide) hinput hidle.2

end Threaded.Session

end WireCommand
