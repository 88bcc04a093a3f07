import WireCommand.Foundation.Framing

/-!
# The accounts of a connection

A server reads a stream of framed requests from a connection and answers each of them, in order,
with bytes of its own. A `Ledger` balances what has gone over the wire against what the server
holds:

* **received** is the frames of the requests answered so far, the frames of those still pending,
  and the unparsed input;
* **sent**, followed by the output that waits to be sent, is the responses of the answered
  requests, and the waiting output belongs to the last of them alone.

The server does four things to a connection, and each has its rule: bytes arrive (`receive`),
frames at the front of the input become pending requests (`parse`), the first pending request is
answered into an empty output (`answer`), and some of the output leaves (`send`). Whatever order
they come in, a lost, repeated or reordered request or response would break the balance.
-/

namespace Foundation.Framing

variable {α β : Type}

/-- What went over the wire, against what the server holds. -/
structure Ledger (C : Codec α β) (respond : α → List β) (received sent : List β)
    (answered pending : List α) (input output : List β) : Prop where
  received_eq : received = C.encodeAll (answered ++ pending) ++ input
  sent_eq : sent ++ output = answered.flatMap respond
  last_only : output ≠ [] → ∃ earlier last, answered = earlier ++ [last] ∧ output <:+ respond last

namespace Ledger

variable {C : Codec α β} {respond : α → List β} {received sent : List β}
  {answered pending : List α} {input output : List β}

/-- A connection nothing has happened on. -/
theorem start : Ledger C respond [] [] [] [] [] [] where
  received_eq := rfl
  sent_eq := rfl
  last_only h := absurd rfl h

/-- Bytes arrive. -/
theorem receive (h : Ledger C respond received sent answered pending input output)
    (bytes : List β) :
    Ledger C respond (received ++ bytes) sent answered pending (input ++ bytes) output where
  received_eq := C.split_append h.received_eq
  sent_eq := h.sent_eq
  last_only := h.last_only

/-- Frames at the front of the input become pending requests. -/
theorem parse {parsed : List α}
    (h : Ledger C respond received sent answered pending (C.encodeAll parsed ++ input) output) :
    Ledger C respond received sent answered (pending ++ parsed) input output where
  received_eq := by rw [h.received_eq]; simp
  sent_eq := h.sent_eq
  last_only := h.last_only

/-- The first pending request is answered into an empty output. -/
theorem answer {a : α} (h : Ledger C respond received sent answered (a :: pending) input []) :
    Ledger C respond received sent (answered ++ [a]) pending input (respond a) where
  received_eq := by rw [h.received_eq]; simp
  sent_eq := by
    have hsent : sent = answered.flatMap respond := by simpa using h.sent_eq
    simp [hsent]
  last_only _ := ⟨answered, a, rfl, List.suffix_rfl⟩

/-- Some of the output leaves. -/
theorem send (h : Ledger C respond received sent answered pending input output) (n : Nat) :
    Ledger C respond received (sent ++ output.take n) answered pending input (output.drop n) where
  received_eq := h.received_eq
  sent_eq := by rw [List.append_assoc, List.take_append_drop, h.sent_eq]
  last_only hne := by
    have houtput : output ≠ [] := by
      rintro rfl
      exact hne List.drop_nil
    obtain ⟨earlier, last, hanswered, hsuffix⟩ := h.last_only houtput
    exact ⟨earlier, last, hanswered, (List.drop_suffix n output).trans hsuffix⟩

/-- With no output waiting, everything answered has been sent. -/
theorem sent_of_drained (h : Ledger C respond received sent answered pending input []) :
    sent = answered.flatMap respond := by
  simpa using h.sent_eq

end Ledger

end Foundation.Framing
