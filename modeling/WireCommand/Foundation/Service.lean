import WireCommand.Foundation.Ledger
import WireCommand.Foundation.Simulation

/-!
# A request service

What a server of framed requests is for, said without its buffers, queues and threads. To the outside
a connection is opened, bytes arrive on it, requests are run, bytes leave, and it is closed. The
specification is what may happen when:

* a request is run only if its frame has arrived, and it is the next one: the frames of the requests
  run so far, followed by its own, are at the front of what has arrived;
* it is run only after every earlier response has left completely;
* what leaves is the responses to the requests that have been run, in order, and no more.

So no request is lost, repeated, reordered or made up, and neither is a response. `connection` is the
specification of one connection, and `service` any number of them. A server implements it if its
traces are runs of `service`; then `trace_ok` says what is known of every connection.

`Serving` is the bridge to a server that keeps a `Ledger`: each rule of the ledger is a step of the
specification.
-/

namespace Foundation.Service

open Foundation.Framing

variable {α β κ : Type}

/-! ## One connection -/

/-- What the outside sees of a connection. -/
inductive Act (α β : Type) where
  | opens
  | receives (bytes : List β)
  | runs (request : α)
  | sends (bytes : List β)
  | closes
  deriving DecidableEq

/-- The life of a connection. -/
inductive Status where
  | unopened
  | opened
  | closed
  deriving DecidableEq

/-- A connection, with all that has happened on it. -/
structure Connection (α β : Type) where
  status : Status
  received : List β
  ran : List α
  sent : List β

/-- A connection nothing has happened on. -/
def Connection.fresh : Connection α β := ⟨.unopened, [], [], []⟩

/-- What an act adds to a connection. -/
def Connection.after (x : Connection α β) : Act α β → Connection α β
  | .opens => { x with status := .opened }
  | .receives bytes => { x with received := x.received ++ bytes }
  | .runs request => { x with ran := x.ran ++ [request] }
  | .sends bytes => { x with sent := x.sent ++ bytes }
  | .closes => { x with status := .closed }

/-- What may happen on a connection. -/
def Allows (C : Codec α β) (respond : α → List β) (x : Connection α β) : Act α β → Prop
  | .opens => x.status = .unopened
  | .receives _ => x.status = .opened
  | .runs request =>
      x.status = .opened ∧ C.encodeAll (x.ran ++ [request]) <+: x.received ∧
        x.sent = x.ran.flatMap respond
  | .sends bytes => x.status = .opened ∧ x.sent ++ bytes <+: x.ran.flatMap respond
  | .closes => x.status = .opened

/-- The specification of one connection. -/
def connection (C : Codec α β) (respond : α → List β) :
    StepSystem (Connection α β) (Act α β) where
  init x := x = .fresh
  step x a x' := Allows C respond x a ∧ x' = x.after a

/-- The specification of any number of connections. -/
def service (κ : Type) [DecidableEq κ] (C : Codec α β) (respond : α → List β) :
    StepSystem (κ → Connection α β) (κ × Act α β) :=
  (connection C respond).family κ

variable {C : Codec α β} {respond : α → List β} {x x' : Connection α β} {a : Act α β}

/-- A run of one act. -/
theorem run_one (h : Allows C respond x a) : (connection C respond).Run x [a] (x.after a) :=
  .one ⟨h, rfl⟩

/-! ## What is known of a connection -/

/-- The requests that have been run are the first that have arrived, and what has been sent is a
front of their responses, which lacks at most some of the last. -/
structure Connection.Ok (C : Codec α β) (respond : α → List β) (x : Connection α β) : Prop where
  ran : C.encodeAll x.ran <+: x.received
  sent : x.sent <+: x.ran.flatMap respond
  last : x.ran.dropLast.flatMap respond <+: x.sent

theorem Connection.Ok.after (hok : x.Ok C respond) (h : Allows C respond x a) :
    (x.after a).Ok C respond := by
  cases a with
  | opens => exact ⟨hok.ran, hok.sent, hok.last⟩
  | receives bytes => exact ⟨hok.ran.trans (List.prefix_append _ _), hok.sent, hok.last⟩
  | runs request =>
      obtain ⟨-, hnext, hdrained⟩ := h
      refine ⟨hnext, ?_, ?_⟩
      · simp only [Connection.after, List.flatMap_append]
        exact hok.sent.trans (List.prefix_append _ _)
      · simp only [Connection.after, List.dropLast_concat, hdrained, List.prefix_rfl]
  | sends bytes => exact ⟨hok.ran, h.2, hok.last.trans (List.prefix_append _ _)⟩
  | closes => exact ⟨hok.ran, hok.sent, hok.last⟩

theorem connection_inductive (C : Codec α β) (respond : α → List β) :
    (connection C respond).Inductive (Connection.Ok C respond) where
  init := by
    rintro x rfl
    exact ⟨List.nil_prefix, List.nil_prefix, List.nil_prefix⟩
  step := by
    rintro x a - hok ⟨hallows, rfl⟩
    exact hok.after hallows

/-- On a connection on which no more than one frame arrives, its request is run at most once, and what
is sent is a front of its response. -/
theorem Connection.Ok.single (h : x.Ok C respond) {a : α}
    (hreceived : x.received <+: C.encode a) :
    (x.ran = [] ∧ x.sent = []) ∨
      (x.ran = [a] ∧ x.received = C.encode a ∧ x.sent <+: respond a) := by
  obtain ⟨rest, hrest⟩ := h.ran.trans hreceived
  rcases C.encode_split hrest.symm with ⟨hran, -⟩ | ⟨hran, rfl⟩
  · have hsent := h.sent
    rw [hran] at hsent
    exact .inl ⟨hran, List.prefix_nil.mp hsent⟩
  · have hsent := h.sent
    have hframe := h.ran
    rw [hran] at hsent hframe
    rw [C.encodeAll_singleton] at hframe
    refine .inr ⟨hran, ?_, by simpa using hsent⟩
    exact hreceived.eq_of_length (Nat.le_antisymm hreceived.length_le hframe.length_le)

/-! ## Reading a trace -/

/-- The requests that are run in a trace. -/
def runs (as : List (Act α β)) : List α :=
  as.filterMap fun | .runs request => some request | _ => none

/-- The bytes that arrive in a trace. -/
def receives (as : List (Act α β)) : List β :=
  as.flatMap fun | .receives bytes => bytes | _ => []

/-- The bytes that leave in a trace. -/
def sends (as : List (Act α β)) : List β :=
  as.flatMap fun | .sends bytes => bytes | _ => []

/-- A run adds to a connection what happens in it. -/
theorem run_eq {as : List (Act α β)} (h : (connection C respond).Run x as x') :
    x'.received = x.received ++ receives as ∧ x'.ran = x.ran ++ runs as ∧
      x'.sent = x.sent ++ sends as := by
  induction h with
  | nil => simp [receives, runs, sends]
  | @snoc as y a y' _ hstep ih =>
      obtain ⟨hreceived, hran, hsent⟩ := ih
      obtain ⟨-, rfl⟩ := hstep
      cases a <;> simp_all [receives, runs, sends, Connection.after]

/-- **What a trace of the service says about a connection.** -/
theorem trace_ok [DecidableEq κ] {t : κ → Connection α β} {as : List (κ × Act α β)}
    (h : (service κ C respond).Run (fun _ => .fresh) as t) (c : κ) :
    (t c).Ok C respond ∧ (t c).received = receives (StepSystem.member c as) ∧
      (t c).ran = runs (StepSystem.member c as) ∧
      (t c).sent = sends (StepSystem.member c as) := by
  have hrun := h.member c
  have hinductive := connection_inductive C respond
  have heq := run_eq hrun
  exact ⟨hinductive.run (hinductive.init _ rfl) hrun, by simpa [Connection.fresh] using heq⟩

/-! ## A server that keeps a ledger -/

/-- An open connection, whose accounts balance with what the server holds. -/
structure Serving (C : Codec α β) (respond : α → List β) (x : Connection α β) (pending : List α)
    (input output : List β) : Prop where
  opened : x.status = .opened
  ledger : Ledger C respond x.received x.sent x.ran pending input output

namespace Serving

variable {pending : List α} {input output : List β}

theorem opens : Allows C respond (.fresh : Connection α β) .opens ∧
    Serving C respond (Connection.fresh.after .opens) [] [] [] :=
  ⟨rfl, rfl, .start⟩

theorem receives (h : Serving C respond x pending input output) (bytes : List β) :
    Allows C respond x (.receives bytes) ∧
      Serving C respond (x.after (.receives bytes)) pending (input ++ bytes) output :=
  ⟨h.opened, h.opened, h.ledger.receive bytes⟩

theorem parse {parsed : List α}
    (h : Serving C respond x pending (C.encodeAll parsed ++ input) output) :
    Serving C respond x (pending ++ parsed) input output :=
  ⟨h.opened, h.ledger.parse⟩

theorem runs {request : α} (h : Serving C respond x (request :: pending) input []) :
    Allows C respond x (.runs request) ∧
      Serving C respond (x.after (.runs request)) pending input (respond request) := by
  have hreceived := h.ledger.received_eq
  refine ⟨⟨h.opened, ?_, h.ledger.sent_of_drained⟩, h.opened, h.ledger.answer⟩
  exact ⟨C.encodeAll pending ++ input, by rw [hreceived]; simp⟩

theorem sends (h : Serving C respond x pending input output) (n : Nat) :
    Allows C respond x (.sends (output.take n)) ∧
      Serving C respond (x.after (.sends (output.take n))) pending input (output.drop n) := by
  refine ⟨⟨h.opened, ?_⟩, h.opened, h.ledger.send n⟩
  have hsent := (h.ledger.send n).sent_eq
  exact ⟨output.drop n, hsent⟩

end Serving

end Foundation.Service
