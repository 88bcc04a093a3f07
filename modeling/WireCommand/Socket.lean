import WireCommand.Buffer

/-!
# Socket calls

What the servers can see of a socket: the outcomes of `read`, `send`, `accept` and `poll`. The calls
are the environment's; the only things assumed about them are that `read` and `send` move at least
one byte and at most as many as they were asked to, and that `poll` reports `POLLIN` and `POLLOUT`
only on request.
-/

namespace WireCommand

/-- What `read` returns. -/
inductive ReadOutcome where
  | data (bytes : Bytes)
  | eof
  | interrupted
  | wouldBlock
  | failed
  deriving DecidableEq

/-- What `send` returns; `failed` is an error or a return of 0. -/
inductive SendOutcome where
  | sent (count : Nat)
  | interrupted
  | wouldBlock
  | failed
  deriving DecidableEq

/-- What `accept` returns. -/
inductive AcceptOutcome where
  | accepted (fd : Int)
  | interrupted
  | wouldBlock
  | failed
  deriving DecidableEq

/-! ## Polling -/

/-- What is asked of a descriptor: `POLLIN` and `POLLOUT`. -/
structure Events where
  pollIn : Bool
  pollOut : Bool
  deriving DecidableEq, Repr

/-- What `poll` found. -/
structure Revents where
  pollIn : Bool
  pollOut : Bool
  pollErr : Bool
  pollHup : Bool
  pollNval : Bool
  deriving DecidableEq, Repr

/-- Nothing found. -/
def Revents.none : Revents := ⟨false, false, false, false, false⟩

/-- `revents & (POLLERR | POLLHUP | POLLNVAL)`. -/
def Revents.broken (r : Revents) : Bool := r.pollErr || r.pollHup || r.pollNval

/-- `poll` reports `POLLIN` and `POLLOUT` only when asked to, and the rest at any time. -/
def Revents.answers (r : Revents) (events : Events) : Bool :=
  (!r.pollIn || events.pollIn) && (!r.pollOut || events.pollOut)

/-- `POLLIN` alone. -/
def Revents.readable : Revents := ⟨true, false, false, false, false⟩

/-- `POLLOUT` alone. -/
def Revents.writable : Revents := ⟨false, true, false, false, false⟩

/-! ## The size of a read -/

/-- What all three servers ask `read` for: what is left of the input buffer, but at most a chunk. -/
def Buffer.nextReadSize (input : Buffer) (readSize : Nat) : Nat :=
  let available := sizeSub input.maxSize input.length
  if available < readSize then available else readSize

namespace Buffer

theorem nextReadSize_eq (input : Buffer) (readSize : Nat) :
    input.nextReadSize readSize = min (input.maxSize - input.data.length) readSize := by
  have hlength : input.length = input.data.length := rfl
  unfold nextReadSize
  rw [sizeSub_length]
  simp only
  split <;> omega

/-- What fits into a read fits into the input buffer. -/
theorem append_of_nextReadSize {input : Buffer} {bytes : Bytes} {readSize : Nat}
    (h : bytes.length ≤ input.nextReadSize readSize) :
    ∃ input', input.append bytes true = .ok input' := by
  apply append_of_fits
  have := input.length_le_maxSize
  rw [nextReadSize_eq] at h
  omega

end Buffer

end WireCommand
