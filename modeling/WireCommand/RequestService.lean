import WireCommand.Foundation.Service
import WireCommand.Protocol.Language
import WireCommand.Response

/-!
# The request service

The three servers speak one protocol and are meant for one thing: to run the requests of their
clients and to send back the responses. `requestService` is the service of `Foundation.Service` with
the frames of this protocol and the responses of the host's commands; each server has a theorem that
it implements it.
-/

namespace WireCommand

open Foundation Foundation.Service Protocol

/-- The state of the service: its connections by number, in the order in which they are accepted. -/
abbrev Connections := Nat → Connection Request UInt8

/-- What the outside sees of a connection. -/
abbrev Observation := Act Request UInt8

/-- What one connection to a server may go through. -/
abbrev requestConnection (host : Host) : StepSystem (Connection Request UInt8) Observation :=
  connection requestCodec (respond host)

/-- The service the servers are meant to be. -/
abbrev requestService (host : Host) : StepSystem Connections (Nat × Observation) :=
  service Nat requestCodec (respond host)

end WireCommand
