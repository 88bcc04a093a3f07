import WireCommand.Foundation.History
import WireCommand.Threaded.Session
import WireCommand.Uds.Alone
import WireCommand.Uds.Liveness

/-!
# Clients that shut down their writing side

A client may send its requests, shut down its writing side and go on reading. A worker of a threaded
server reads the end of the stream only when it has nothing left to do for the client, so it answers
every request before it closes the connection. The poll server reads until there is nothing to read,
and takes the end of the stream for the end of the client: the requests that it has read in the same
call, or that wait in the queue, are discarded.

The runs considered here are those of a client that is on its own and of a system that does not get
in its way (`halfClosing`). The client acts beside the server: before any step of the server it may shut
down its writing side (`Peered`).

* `half_closed_unanswered` is one request that is never answered.
* `half_close_answered` says that a client gets all its responses if it waits for them before it shuts
  down, and that a client that does not wait has lost what is missing as soon as the server reads from
  it; a worker answers the same stream in any case.
-/

namespace WireCommand.Uds

open Foundation Foundation.Framing Protocol

/-! ## The server and its client -/

/-- The server, and whether the client has shut down its writing side. -/
structure Peered where
  server : State
  shut : Bool

/-- A step of the server; the client may shut down its writing side before it. -/
structure PeerEvent where
  shuts : Bool
  event : Event

/-- One step of the server beside its client. -/
def Peered.step (host : Host) (p : Peered) (e : PeerEvent) : Option Peered :=
  (Uds.step host p.server e.event).map fun s => ⟨s, p.shut || e.shuts⟩

/-- The server beside its client. -/
def peered (host : Host) : StepSystem Peered PeerEvent :=
  .ofFn (fun p => (server host).init p.server ∧ p.shut = false) (Peered.step host)

/-- The connection `c` arrives when no client is connected, and it gets its slot. -/
def arrivesAlone (c : Nat) (s : State) : Event → Bool
  | .accept (.accepted _) nonblockingOk _ =>
      s.world.nextConn ≠ c || (nonblockingOk && decide (∀ i, ¬ s.world.Live i))
  | _ => true

/-- The steps of a run in which the client of the connection `c` is on its own, sends `requests` and
shuts down its writing side. Before it comes and after it has left, anything may happen. -/
def halfClosing (requests : List Request) (c : Nat) (p : Peered) (e : PeerEvent) : Bool :=
  (!decide (p.server.world.Connected c) || (!p.server.stopRequested &&
    undisturbed requests c (p.shut || e.shuts) p.server e.event)) &&
  arrivesAlone c p.server e.event

/-- The client shuts down its writing side only when it has been sent all the responses. -/
def patient (host : Host) (requests : List Request) (c : Nat) (p : Peered) (e : PeerEvent) : Bool :=
  !e.shuts || decide (p.server.world.sent c = requests.flatMap (respond host))

/-- The server in the runs of a half-closing client. -/
def halfClosingServer (host : Host) (requests : List Request) (c : Nat) :
    StepSystem Peered PeerEvent :=
  (peered host).restrict fun p e => halfClosing requests c p e = true

/-- The same, when the client is patient. -/
def patientServer (host : Host) (requests : List Request) (c : Nat) :
    StepSystem Peered PeerEvent :=
  (peered host).restrict fun p e =>
    (halfClosing requests c p e && patient host requests c p e) = true

/-- The connection has not come yet, or is being served, or has been sent all responses. -/
def Answered (host : Host) (requests : List Request) (c : Nat) (w : World) : Prop :=
  w.nextConn ≤ c ∨ w.Connected c ∨ w.sent c = requests.flatMap (respond host)

variable {host : Host} {requests : List Request} {c : Nat} {w w' : World} {i : Slot}
  {s s' : State} {p p' : Peered} {e : PeerEvent}

theorem Peered.step_eq (h : p.step host e = some p') :
    Uds.step host p.server e.event = some p'.server ∧ p'.shut = (p.shut || e.shuts) := by
  obtain ⟨s, hs, rfl⟩ := Option.map_eq_some_iff.mp h
  exact ⟨hs, rfl⟩

/-- Beside its client the server does what it does. -/
theorem projects_peered (host : Host) :
    StepSystem.Projects (peered host) (server host) Peered.server PeerEvent.event where
  init _ hs := hs.1
  step _ _ _ hstep := (Peered.step_eq hstep).1

theorem halfClosing_connected (hcond : halfClosing requests c p e = true)
    (hc : p.server.world.Connected c) :
    p.server.stopRequested = false ∧
      undisturbed requests c (p.shut || e.shuts) p.server e.event = true := by
  simp only [halfClosing, hc, decide_true, Bool.not_true, Bool.false_or, Bool.and_eq_true,
    Bool.not_eq_true'] at hcond
  exact hcond.1

/-- When the connection arrives, no client is connected, and it gets its slot. -/
theorem halfClosing_arrival {fd : Int} {nonblockingOk released : Bool}
    (hcond : halfClosing requests c p e = true)
    (he : e.event = .accept (.accepted fd) nonblockingOk released)
    (hc : p.server.world.nextConn = c) : nonblockingOk = true ∧ ∀ i, ¬ p.server.world.Live i := by
  simp only [halfClosing, Bool.and_eq_true, he] at hcond
  simpa [arrivesAlone, hc] using hcond.2

/-! ## What holds in these runs -/

/-- The invariant of these runs. -/
structure Undisturbed (host : Host) (requests : List Request) (c : Nat) (s : State) : Prop where
  valid : s.Valid host
  own : s.world.Connected c → OnItsOwn requests c s

/-- The client is on its own from the moment it arrives. -/
theorem Move.arrives (hmove : Move host p.server e.event s') (hs : p.server.Valid host)
    (hcond : halfClosing requests c p e = true) (hc : ¬ p.server.world.Connected c)
    (hc' : s'.world.Connected c) : OnItsOwn requests c s' := by
  rcases hmove.effect hs with heffect | ⟨fd, nonblockingOk, released, he, harrival⟩
  · exact absurd (heffect.keeps.connected hc') hc
  · have hnext : p.server.world.nextConn = c := by
      obtain ⟨j, hj, hconn⟩ := hc'
      rcases harrival.live hj with ⟨hold, hsame⟩ | hnew
      · exact absurd ⟨j, hold, hsame ▸ hconn⟩ hc
      · exact hnew.symm.trans hconn
    obtain ⟨-, hfree⟩ := halfClosing_arrival hcond he hnext
    refine ⟨?_, ?_, ?_⟩
    · intro j hj
      rcases harrival.live hj with ⟨hold, -⟩ | hnew
      · exact absurd hold (hfree j)
      · exact hnew.trans hnext
    · rw [harrival.streams.2.1, (hs.world.fresh c (Nat.le_of_eq hnext)).1]
      exact List.nil_prefix
    · rw [he] at hmove
      generalize p.server = s at hmove
      cases hmove with
      | @accept stop w _ _ _ again w' _ => cases again <;> trivial

theorem Undisturbed.step (h : Undisturbed host requests c p.server)
    (hstep : Uds.step host p.server e.event = some s')
    (hcond : halfClosing requests c p e = true) : Undisturbed host requests c s' := by
  have hmove := step_move hstep
  refine ⟨hmove.valid h.valid, fun hc' => ?_⟩
  by_cases hc : p.server.world.Connected c
  · obtain ⟨hstop, hundisturbed⟩ := halfClosing_connected hcond hc
    exact hmove.onItsOwn h.valid (h.own hc) hstop hundisturbed
  · exact hmove.arrives h.valid hcond hc hc'

theorem undisturbed_inductive (host : Host) (requests : List Request) (c : Nat) :
    (halfClosingServer host requests c).Inductive fun p => Undisturbed host requests c p.server where
  init := by
    rintro p ⟨⟨openFds, stopRequested, hp⟩, -⟩
    rw [hp]
    refine ⟨valid_start openFds stopRequested, ?_⟩
    rintro ⟨i, hi, -⟩
    exact absurd rfl hi
  step _ _ _ hs hstep := hs.step (Peered.step_eq hstep.1).1 hstep.2

/-- The client stays, or the end of its stream has been read. -/
theorem Undisturbed.connected_or_eof (h : Undisturbed host requests c p.server)
    (hlen : requests.length ≤ maxQueuedRequests)
    (hstep : Uds.step host p.server e.event = some s')
    (hcond : halfClosing requests c p e = true) (hc : p.server.world.Connected c) :
    s'.world.Connected c ∨
      ((p.shut || e.shuts) = true ∧ s'.world.sent c = p.server.world.sent c ∧
        s'.world.nextConn = p.server.world.nextConn) := by
  obtain ⟨-, hundisturbed⟩ := halfClosing_connected hcond hc
  have hmove := step_move hstep
  by_cases heof : ∃ env released, e.event = .read .eof env released
  · obtain ⟨env, released, he⟩ := heof
    rw [he] at hmove hundisturbed
    obtain ⟨entry, listener, todo, -, hworld⟩ := hmove.eof h.valid
    rw [hworld, removeClient_sent, removeClient_nextConn]
    exact .inr ⟨(Bool.and_eq_true_iff.mp hundisturbed).1, rfl, rfl⟩
  · have hstays := hmove.stays h.valid (h.own hc) hlen hundisturbed
      fun env released he => heof ⟨env, released, he⟩
    exact .inl (hstays.connected hc)

/-- A client that has been sent all its responses is not sent any more. -/
theorem Undisturbed.sent_all (h : Undisturbed host requests c p.server)
    (hlen : requests.length ≤ maxQueuedRequests)
    (hstep : Uds.step host p.server e.event = some s')
    (hcond : halfClosing requests c p e = true)
    (hall : p.server.world.sent c = requests.flatMap (respond host)) :
    s'.world.sent c = requests.flatMap (respond host) := by
  have hmove := step_move hstep
  by_cases hc : p.server.world.Connected c
  · rcases h.connected_or_eof hlen hstep hcond hc with hc' | ⟨-, hsent, -⟩
    · have h' := h.step hstep hcond
      have hle := (h'.own hc').sent_le h'.valid hc'
      have hge := hmove.sent_prefix h.valid c
      rw [hall] at hge
      exact hle.eq_of_length (Nat.le_antisymm hle.length_le hge.length_le)
    · rw [hsent, hall]
  · rw [(hmove.effect h.valid).sent_of_gone hc, hall]

/-! ## Patient clients -/

/-- The invariant of the runs of a patient client. -/
structure Patient (host : Host) (requests : List Request) (c : Nat) (p : Peered) : Prop where
  undisturbed : Undisturbed host requests c p.server
  waited : p.shut = true → p.server.world.sent c = requests.flatMap (respond host)
  answered : Answered host requests c p.server.world

theorem Patient.step (h : Patient host requests c p) (hlen : requests.length ≤ maxQueuedRequests)
    (hstep : (patientServer host requests c).step p e p') : Patient host requests c p' := by
  obtain ⟨hstep, hcond⟩ := hstep
  obtain ⟨hserver, hshut⟩ := Peered.step_eq hstep
  rw [Bool.and_eq_true] at hcond
  obtain ⟨hcond, hpatient⟩ := hcond
  -- whenever the client has shut down, it had been sent everything
  have hwaited : (p.shut || e.shuts) = true →
      p.server.world.sent c = requests.flatMap (respond host) := by
    intro hshuts
    rcases Bool.or_eq_true_iff.mp hshuts with hbefore | hnow
    · exact h.waited hbefore
    · simpa [patient, hnow] using hpatient
  have hund := h.undisturbed
  refine ⟨hund.step hserver hcond, fun hs => ?_, ?_⟩
  · exact hund.sent_all hlen hserver hcond (hwaited (hshut ▸ hs))
  · by_cases hc : p.server.world.Connected c
    · rcases hund.connected_or_eof hlen hserver hcond hc with hc' | ⟨hshuts, hsent, -⟩
      · exact .inr (.inl hc')
      · exact .inr (.inr (hsent.trans (hwaited hshuts)))
    · have heffect := (step_move hserver).effect hund.valid
      rcases h.answered with hnext | hconnected | hsent
      · -- the connection has not come yet, and may come now
        rcases heffect with heffect | ⟨fd, nonblockingOk, released, he, harrival⟩
        · exact .inl (by rw [heffect.nextConn]; exact hnext)
        · by_cases hnow : p.server.world.nextConn = c
          · obtain ⟨hfcntl, -⟩ := halfClosing_arrival hcond he hnow
            obtain ⟨i, hi⟩ := harrival.slot hfcntl
            exact .inr (.inl ⟨i, hi.1, hi.2.trans hnow⟩)
          · exact .inl (by rw [harrival.streams.1]; omega)
      · exact absurd hconnected hc
      · exact .inr (.inr (by rw [heffect.sent_of_gone hc, hsent]))

theorem patient_inductive (host : Host) (c : Nat) (hlen : requests.length ≤ maxQueuedRequests) :
    (patientServer host requests c).Inductive (Patient host requests c) where
  init := by
    intro p hinit
    have hund := (undisturbed_inductive host requests c).init p hinit
    obtain ⟨⟨openFds, stopRequested, hp⟩, hshut⟩ := hinit
    refine ⟨hund, fun hs => ?_, .inl ?_⟩
    · rw [hshut] at hs
      cases hs
    · rw [hp]
      exact Nat.zero_le c
  step _ _ _ hp hstep := hp.step hlen hstep

/-! ## Impatient clients -/

/-- The client has shut down and has not been sent everything, and the server is reading from it or has
closed the connection. -/
structure Doomed (host : Host) (requests : List Request) (c : Nat) (p : Peered) : Prop where
  undisturbed : Undisturbed host requests c p.server
  shut : p.shut = true
  missing : p.server.world.sent c ≠ requests.flatMap (respond host)
  reads : Calls .input c p.server ∨
    (¬ p.server.world.Connected c ∧ c < p.server.world.nextConn)

/-- Once the client has shut down, the read loop goes on to the end of the stream and sends nothing. -/
theorem Move.reads_on {e : Event} (hmove : Move host s e s') (hs : s.Valid host)
    (hown : OnItsOwn requests c s) (hlen : requests.length ≤ maxQueuedRequests)
    (hcond : undisturbed requests c true s e = true) (hcalls : Calls .input c s) :
    s'.world.sent c = s.world.sent c ∧ (Calls .input c s' ∨
      (¬ s'.world.Connected c ∧ s'.world.nextConn = s.world.nextConn)) := by
  obtain ⟨entry, listener, todo, hpc, hconn⟩ := hcalls
  have hpcok := hs.pc
  rw [hpc] at hpcok
  have hi : s.world.Live entry.slot := hpcok.1.1
  have hseat : (s.world.clients entry.slot).conn = c := hpcok.1.2.2.trans hconn
  cases hmove with
  | signal _ => cases hcond
  | @read entry' listener' todo' stop w outcome env released result hread =>
      cases hpc
      obtain ⟨iteration, w'⟩ := result
      refine ⟨by rw [continueVisit_sent, readClient_sent hs.world hi hread], ?_⟩
      by_cases heof : outcome = .eof
      · subst heof
        cases readClient_read hs.world hi hread with
        | eof =>
            refine .inr ⟨?_, removeClient_nextConn released⟩
            rw [← hseat]
            exact not_connected_removed hs.world hi (.refl hs.world) released
      · have hagain := hown.reads hs hi hlen hcond heof hread
        have hblock : outcome ≠ .wouldBlock := by
          rintro rfl
          cases hcond
        rw [if_neg hblock] at hagain
        subst hagain
        exact .inl ⟨_, _, _, rfl, hconn⟩
  | visit => cases hpc
  | _ => cases hpc

/-- **There is no way back**: whatever is still to be read, the read loop ends with the end of the
stream, and the connection is closed. -/
theorem Doomed.step (h : Doomed host requests c p) (hlen : requests.length ≤ maxQueuedRequests)
    (hstep : (halfClosingServer host requests c).step p e p') : Doomed host requests c p' := by
  obtain ⟨hstep, hcond⟩ := hstep
  obtain ⟨hserver, hshut⟩ := Peered.step_eq hstep
  have hund := h.undisturbed
  have hmove := step_move hserver
  rw [h.shut, Bool.true_or] at hshut
  rcases h.reads with hcalls | ⟨hgone, hcame⟩
  · have hc : p.server.world.Connected c := hcalls.connected hund.valid
    have hlt : c < p.server.world.nextConn := by
      obtain ⟨i, hi, rfl⟩ := hc
      exact (hund.valid.world.client i hi).conn_lt
    obtain ⟨-, hundisturbed⟩ := halfClosing_connected hcond hc
    rw [h.shut, Bool.true_or] at hundisturbed
    obtain ⟨hsent, hreads⟩ := hmove.reads_on hund.valid (hund.own hc) hlen hundisturbed hcalls
    exact ⟨hund.step hserver hcond, hshut, by rw [hsent]; exact h.missing,
      hreads.imp_right fun ⟨hgone, hnext⟩ => ⟨hgone, by omega⟩⟩
  · have heffect := hmove.effect hund.valid
    refine ⟨hund.step hserver hcond, hshut, by rw [heffect.sent_of_gone hgone]; exact h.missing,
      .inr ?_⟩
    -- the connection has been there, and does not come again
    rcases heffect with heffect | ⟨fd, nonblockingOk, released, he, harrival⟩
    · exact ⟨fun hc => hgone (heffect.keeps.connected hc), by rw [heffect.nextConn]; exact hcame⟩
    · refine ⟨?_, by rw [harrival.streams.1]; omega⟩
      rintro ⟨j, hj, hconn⟩
      rcases harrival.live hj with ⟨hold, hsame⟩ | hnew
      · exact hgone ⟨j, hold, hsame ▸ hconn⟩
      · rw [hconn] at hnew
        omega

theorem Doomed.run {es : List PeerEvent} (h : Doomed host requests c p)
    (hlen : requests.length ≤ maxQueuedRequests)
    (hrun : (halfClosingServer host requests c).Run p es p') : Doomed host requests c p' := by
  induction hrun with
  | nil => exact h
  | snoc _ hstep ih => exact ih.step hlen hstep

/-! ## Progress -/

/-- A call of `read` that does not return `EAGAIN` reads something, as long as there is something to
read. -/
theorem Move.reads_more {e : Event} {shut : Bool} (hmove : Move host s e s') (hs : s.Valid host)
    (hown : OnItsOwn requests c s) (hcond : undisturbed requests c shut s e = true)
    (hcalls : Calls .input c s) (hunread : s.world.received c ≠ requestCodec.encodeAll requests)
    (hidle : e.idle = false) (hblocks : e.blocks = false) :
    s'.world.received c ≠ s.world.received c := by
  obtain ⟨entry, listener, todo, hpc, -⟩ := hcalls
  have hpcok := hs.pc
  rw [hpc] at hpcok
  have hi : s.world.Live entry.slot := hpcok.1.1
  cases hmove with
  | signal _ => cases hcond
  | @read entry' listener' todo' stop w outcome env released result hread =>
      cases hpc
      obtain ⟨iteration, w'⟩ := result
      rw [continueVisit_received]
      have hnoted : ∀ bytes, bytes ≠ [] →
          (w.noteReceived (w.clients entry.slot).conn bytes).received c ≠ w.received c := by
        intro bytes hbytes
        rw [hown.only entry.slot hi, noteReceived_self]
        exact fun h => hbytes (List.append_right_eq_self.mp h)
      cases readClient_read hs.world hi hread with
      | eof => exact absurd (of_decide_eq_true (Bool.and_eq_true_iff.mp hcond).2) hunread
      | interrupted => cases hidle
      | wouldBlock => cases hblocks
      | failed => cases hcond
      | lost _ hbytes => exact hnoted _ hbytes
      | parsed _ _ _ _ _ _ hbytes => exact hnoted _ hbytes
  | visit => cases hpc
  | _ => cases hpc

section Execution

variable (x : (patientServer host requests c).Execution)

/-- What the server does in an execution of both. -/
def serverOf : (server host).Execution := ((projects_peered host).restrict _).execution x

/-- The conditions of the execution, at each of its steps. -/
theorem patient_condition (m : Nat) : halfClosing requests c (x.state m) (x.event m) = true :=
  (Bool.and_eq_true_iff.mp (x.step m).2).1

theorem patient_step (m : Nat) :
    Uds.step host (x.state m).server (x.event m).event = some (x.state (m + 1)).server ∧
      (x.state (m + 1)).shut = ((x.state m).shut || (x.event m).shuts) :=
  Peered.step_eq (x.step m).1

/-- What has been read of the client only grows, up to the length of its stream, so it comes to rest. -/
theorem reading_rests (hs : ∀ m, Undisturbed host requests c (x.state m).server) {n : Nat}
    (hconnected : ∀ m, n ≤ m → (x.state m).server.world.Connected c) :
    ∃ N, n ≤ N ∧ ∀ m, N ≤ m →
      (x.state (m + 1)).server.world.received c = (x.state m).server.world.received c := by
  let unread (p : Peered) : Nat :=
    (requestCodec.encodeAll requests).length - (p.server.world.received c).length
  have hpays : ∀ m b, n ≤ m → unread (x.state m) = b → ∃ b', unread (x.state (m + 1)) = b' ∧
      ((b' = b ∧ (x.state (m + 1)).server.world.received c =
        (x.state m).server.world.received c) ∨ b' < b) := by
    rintro m _ hm rfl
    obtain ⟨bytes, hbytes⟩ := ((hs m).own (hconnected m hm)).received_or
      (step_move (patient_step x m).1) (hs m).valid
    have hle := ((hs (m + 1)).own (hconnected (m + 1) (by omega))).stream.length_le
    refine ⟨_, rfl, ?_⟩
    simp only [unread]
    rw [hbytes, List.length_append] at hle ⊢
    cases bytes with
    | nil => exact .inl ⟨by simp, by simp⟩
    | cons byte bytes =>
        right
        rw [List.length_cons] at hle ⊢
        omega
  obtain ⟨N, b, hN, hrests⟩ := x.settles (fun p b => unread p = b)
    (fun m _ => (x.state (m + 1)).server.world.received c = (x.state m).server.world.received c) id
    hpays rfl
  exact ⟨N, hN, fun m hm => (hrests m hm).2⟩

/-- **The stream of the client is read to its end**, if `poll` and `read` give it to the server. -/
theorem reads_all (hs : ∀ m, Undisturbed host requests c (x.state m).server)
    (hinit : (server host).init (x.state 0).server) {n : Nat}
    (hidle : ∀ m, n ≤ m → (x.event m).event.idle = false)
    (hconnected : ∀ m, n ≤ m → (x.state m).server.world.Connected c)
    (hobliging : Obliging (serverOf x) .input c
      fun s => s.world.received c ≠ requestCodec.encodeAll requests) :
    ∃ m, n ≤ m ∧ (x.state m).server.world.received c = requestCodec.encodeAll requests := by
  by_contra hunread
  push Not at hunread
  have hown : ∀ m, n ≤ m → OnItsOwn requests c (x.state m).server := fun m hm =>
    (hs m).own (hconnected m hm)
  obtain ⟨N, hN, hrests⟩ := reading_rests x hs hconnected
  obtain ⟨i, hseated⟩ := seated_of_connected (serverOf x) (fun m => (hs m).valid)
    fun m (hm : N ≤ m) => hconnected m (by omega)
  obtain ⟨m, hm, hcalls, hblocks⟩ := hobliging.called N (fun m hm => hunread m (by omega))
    (hobliging.calls_again (serverOf x) hinit (fun m hm => hidle m (by omega)) hseated
      (fun m hm => hunread m (by omega)) nofun)
  obtain ⟨-, hundisturbed⟩ :=
    halfClosing_connected (patient_condition x m) (hconnected m (by omega))
  exact (step_move (patient_step x m).1).reads_more (hs m).valid (hown m (by omega)) hundisturbed
    hcalls (hunread m (by omega)) (hidle m (by omega)) hblocks (hrests m hm)

/-- **A patient client is answered.** -/
theorem patient_answered (hlen : requests.length ≤ maxQueuedRequests)
    (hinit : (patientServer host requests c).init (x.state 0))
    (hcomes : ∃ n, (x.state n).server.world.Connected c)
    (hidle : ∃ N, ∀ m, N ≤ m → (x.event m).event.idle = false)
    (hgives : Obliging (serverOf x) .input c
      fun s => s.world.received c ≠ requestCodec.encodeAll requests)
    (htakes : Obliging (serverOf x) .output c fun s => s.world.Owes c) :
    ∃ m, (x.state m).server.world.sent c = requests.flatMap (respond host) := by
  by_contra hnever
  push Not at hnever
  have hp : ∀ m, Patient host requests c (x.state m) := fun m =>
    (patient_inductive host c hlen).reachable (x.reachable hinit m)
  obtain ⟨n, hn⟩ := hcomes
  obtain ⟨N, hidle⟩ := hidle
  -- the client does not leave before it has been sent everything
  have hconnected : ∀ m, n ≤ m → (x.state m).server.world.Connected c := fun m =>
    x.stays (P := fun p => p.server.world.Connected c) (fun k _ hc => by
      obtain ⟨hstep, hshut⟩ := patient_step x k
      rcases (hp k).undisturbed.connected_or_eof hlen hstep (patient_condition x k) hc with
        hc' | ⟨hshuts, -, -⟩
      · exact hc'
      · exact absurd ((hp (k + 1)).waited (hshut.trans hshuts)) (hnever (k + 1))) hn
  obtain ⟨m₁, hm₁, hstream⟩ := reads_all x (fun m => (hp m).undisturbed) hinit.1
    (n := max n N) (fun m hm => hidle m (by omega)) (fun m hm => hconnected m (by omega)) hgives
  obtain ⟨i, hi, hconn⟩ := hconnected m₁ (by omega)
  have hreceived : (x.state m₁).server.world.received ((x.state m₁).server.world.clients i).conn =
      requestCodec.encodeAll requests := by rw [hconn, hstream]
  obtain ⟨k, haccounts⟩ :=
    ((hp m₁).undisturbed.valid.world.client i hi).accounts_of_stream hreceived
  have hall : ∀ c', Takes (serverOf x) c' := by
    intro c'
    by_cases hc' : c' = c
    · rw [hc']
      exact takes_output (serverOf x) hinit.1 hidle htakes
    · -- nobody else is there
      intro n' howes
      obtain ⟨j, hj, hconn', -⟩ := howes (max n n') (le_max_right _ _)
      have hown := (hp (max n n')).undisturbed.own (hconnected _ (le_max_left _ _))
      exact absurd (hconn'.symm.trans (hown.only j hj)) hc'
  obtain ⟨m, hm, hanswer⟩ := answered_of_takes (serverOf x) hinit.1 hidle hall (n := m₁) hi haccounts
  have hc := hconnected m (by omega)
  have hle := ((hp m).undisturbed.own hc).sent_le (hp m).undisturbed.valid hc
  have hconn' : (((serverOf x).state m₁).world.clients i).conn = c := hconn
  rw [hconn'] at hanswer
  have hprefix : requests.flatMap (respond host) <+: (x.state m).server.world.sent c :=
    hanswer.resolve_left fun hgone => hgone hc
  exact hnever m (hle.eq_of_length (Nat.le_antisymm hle.length_le hprefix.length_le))

end Execution

/-! ## The answers of half-closing clients -/

/-- **When half-closing clients get their answers.** A client on its own sends at most 256 requests
and shuts down its writing side. If it does so only when it has been sent all the responses, the poll
server does not close the connection before; and it does send them all, if calls are not interrupted for
ever and `poll`, `read` and `send` do for the client what `Obliging` says. If the client shuts down earlier
and the server reads from it before the last response has been sent, that response is never sent. A worker
of a threaded server that reads the same stream to its end has sent all of them in any case. -/
theorem half_close_answered (host : Host) (requests : List Request) (c : Nat)
    (hlen : requests.length ≤ maxQueuedRequests) :
    (∀ p, (patientServer host requests c).Reachable p → Answered host requests c p.server.world) ∧
    (∀ x : (patientServer host requests c).Execution,
      (patientServer host requests c).init (x.state 0) →
      (∃ n, (x.state n).server.world.Connected c) →
      (∃ N, ∀ m, N ≤ m → (x.event m).event.idle = false) →
      Obliging (serverOf x) .input c (fun s =>
        s.world.received c ≠ requestCodec.encodeAll requests) →
      Obliging (serverOf x) .output c (fun s => s.world.Owes c) →
      ∃ m, (x.state m).server.world.sent c = requests.flatMap (respond host)) ∧
    (∀ p p' es, (halfClosingServer host requests c).Reachable p → p.shut = true →
      Calls .input c p.server →
      p.server.world.sent c ≠ requests.flatMap (respond host) →
      (halfClosingServer host requests c).Run p es p' →
      p'.server.world.sent c ≠ requests.flatMap (respond host)) ∧
    ∀ (transport : Threaded.Transport) (s : Threaded.Session.State),
      (transport.worker host).Reachable s → s.pc = .left .endOfFile →
      s.received = requestCodec.encodeAll requests →
      s.sent = requests.flatMap (respond host) := by
  refine ⟨?_, ?_, ?_, ?_⟩
  · intro p hp
    exact ((patient_inductive host c hlen).reachable hp).answered
  · intro x hinit hcomes hidle hgives htakes
    exact patient_answered x hlen hinit hcomes hidle hgives htakes
  · intro p p' es hp hshut hcalls hmissing hrun
    have hdoomed : Doomed host requests c p :=
      ⟨(undisturbed_inductive host requests c).reachable hp, hshut, hmissing, .inl hcalls⟩
    exact (hdoomed.run hlen hrun).missing
  · intro transport s hs hpc hreceived
    have hmax : requestCodec.Maximal (requestCodec.encodeAll requests) requests [] :=
      ⟨by rw [List.append_nil], rfl⟩
    exact (Threaded.Session.valid_of_reachable hs).sent_of_ended (by rw [hpc]; exact .endOfFile)
      (by rw [hreceived, List.append_nil]) (fun _ => rfl) hmax

/-- The client does nothing meanwhile. -/
def meanwhile (es : List Event) : List PeerEvent := es.map (⟨false, ·⟩)

/-- The only client sends a request and waits for the response, and then shuts down. -/
def patientRun : List PeerEvent :=
  meanwhile (connectRound ++ requestRound ++
    [.process .fair true, .tick, .poll (.ready .none [.writable]), .tick, .send (.sent 3) true,
      .send .wouldBlock true, .close true, .tick] ++ idleRound) ++
  [⟨true, .poll (.ready .readable [.readable])⟩] ++ meanwhile [.tick, .read .eof .fair true, .tick]

/-- The only client sends a request and shuts down at once, and the server begins to read. -/
def impatientRun : List PeerEvent :=
  meanwhile (connectRound ++ idleRound) ++ [⟨true, .poll (.ready .none [.readable])⟩] ++
  meanwhile [.tick, .read (.data pwdFrame) .fair true]

/-- The server beside its client when it enters its loop. -/
def Peered.start : Peered := ⟨.start {3} false, false⟩

theorem peered_start (host : Host) : (peered host).init .start := ⟨⟨{3}, false, rfl⟩, rfl⟩

/-- A run of a half-closing client. -/
theorem halfClosing_reaches (host : Host) (requests : List Request) (c : Nat) (es : List PeerEvent)
    (test : Peered → Bool)
    (h : (StepSystem.exec (StepSystem.guard (halfClosing requests c) (Peered.step host)) .start
      es).any test = true) :
    ∃ p, (halfClosingServer host requests c).Reachable p ∧ test p = true :=
  StepSystem.exists_reachable_restrict (peered_start host) h

/-- The server is about to read from the client of the connection. -/
def State.reads (s : State) (c : Nat) : Bool :=
  match s.pc with
  | .visiting .read entry _ _ => entry.conn = c
  | _ => false

theorem reads_iff : s.reads c = true ↔ Calls .input c s := by
  obtain ⟨pc, stop, w⟩ := s
  constructor
  · intro h
    unfold State.reads at h
    split at h
    · next hpc => exact ⟨_, _, _, hpc, of_decide_eq_true h⟩
    · cases h
  · rintro ⟨entry, listener, todo, hpc, hconn⟩
    change pc = _ at hpc
    subst hpc
    exact decide_eq_true hconn

/-- An execution that begins with `patientRun`, behind which the server wakes up for nothing. -/
theorem exists_patientRun : ∃ x : (patientServer plainHost [pwdRequest] 0).Execution,
    (patientServer plainHost [pwdRequest] 0).init (x.state 0) ∧
    (∃ n, (x.state n).server.world.Connected 0) ∧
    ∀ m, patientRun.length ≤ m → (x.event m).event.idle = false ∧
      (x.state m).shut = true ∧ (x.state m).server.world.nextConn = 1 ∧
      ¬ (x.state m).server.world.Connected 0 ∧
      (x.state m).server.world.received 0 = requestCodec.encodeAll [pwdRequest] ∧
      ∀ c, ¬ (x.state m).server.world.Owes c := by
  let C := fun p e => halfClosing [pwdRequest] 0 p e && patient plainHost [pwdRequest] 0 p e
  have hend : (StepSystem.exec (StepSystem.guard C (Peered.step plainHost)) .start patientRun).any
      (fun p => p.server.pc.isAccepting && !p.server.stopRequested && p.shut &&
        p.server.world.queue.isEmpty && hasFreeClientSlot p.server.world.clients &&
        (p.server.world.nextConn == 1) && (p.server.world.received 0 == pwdFrame) &&
        (List.finRange maxClients).all fun i => !decide (p.server.world.Live i)) = true := by
    decide +kernel
  have hcomes : (StepSystem.exec (StepSystem.guard C (Peered.step plainHost)) .start
      (patientRun.take 7)).any (fun p => p.server.world.Connected 0) = true := by
    decide +kernel
  rw [Option.any_eq_true] at hend hcomes
  obtain ⟨⟨⟨pc, stop, w⟩, shut⟩, hexec, hp⟩ := hend
  obtain ⟨t, hexec', ht⟩ := hcomes
  simp only [Bool.and_eq_true, Bool.not_eq_true', isAccepting_iff, List.isEmpty_iff, beq_iff_eq,
    decide_eq_false_iff_not, List.all_eq_true, List.mem_finRange, true_implies] at hp
  obtain ⟨⟨⟨⟨⟨⟨⟨rfl, rfl⟩, rfl⟩, hqueue⟩, hfree⟩, hnext⟩, hreceived⟩, hempty⟩ := hp
  have hgone : ¬ w.Connected 0 := by
    rintro ⟨i, hi, -⟩
    exact hempty i hi
  have howes : ∀ c, ¬ w.Owes c := by
    rintro c ⟨i, hi, -⟩
    exact hempty i hi
  have hspins : ∀ p : Peered, (∃ pc, p = ⟨⟨pc, false, w⟩, true⟩ ∧ Spurious w pc) → ∃ e p',
      e.event.idle = false ∧ StepSystem.guard C (Peered.step plainHost) p e = some p' ∧
        ∃ pc, p' = ⟨⟨pc, false, w⟩, true⟩ ∧ Spurious w pc := by
    rintro _ ⟨pc, rfl, h⟩
    obtain ⟨e, pc', he, harrives, hstep, h'⟩ := h.next hqueue hfree
    have hcond : C ⟨⟨pc, false, w⟩, true⟩ ⟨false, e⟩ = true := by
      have halone : arrivesAlone 0 ⟨pc, false, w⟩ e = true := by
        unfold arrivesAlone
        split
        · cases harrives
        · rfl
      simp only [C, halfClosing, patient, hgone, halone]
      rfl
    refine ⟨⟨false, e⟩, _, he, ?_, pc', rfl, h'⟩
    rw [StepSystem.guard, if_pos hcond, Peered.step, hstep]
    rfl
  obtain ⟨x, hrun, htail⟩ : ∃ x : (StepSystem.ofFn (peered plainHost).init
      (StepSystem.guard C (Peered.step plainHost))).Execution, _ ∧ _ :=
    StepSystem.exists_execution_after hspins hexec ⟨_, rfl, .accepting⟩
  refine ⟨(StepSystem.projects_guard _ _ _).execution x, ?_, ⟨7, ?_⟩, fun m hm => ?_⟩
  · show (peered plainHost).init (x.state 0)
    rw [hrun 0 _ (Nat.zero_le _) rfl]
    exact peered_start plainHost
  · show (x.state 7).server.world.Connected 0
    rw [hrun 7 t (by decide) hexec']
    exact of_decide_eq_true ht
  · obtain ⟨⟨pc, hstate, -⟩, hidle⟩ := htail m hm
    have hends : ∀ p : Peered, p = ⟨⟨pc, false, w⟩, true⟩ → p.shut = true ∧
        p.server.world.nextConn = 1 ∧ ¬ p.server.world.Connected 0 ∧
        p.server.world.received 0 = pwdFrame ∧ ∀ c, ¬ p.server.world.Owes c := by
      rintro _ rfl
      exact ⟨rfl, hnext, hgone, hreceived, howes⟩
    exact ⟨hidle, hends _ hstate⟩

/-- A client that waits for the response to its request is sent it, and its connection is closed when
it shuts down; one that does not wait has lost it when the server reads. -/
theorem half_close_answered_run :
    (∃ x : (patientServer plainHost [pwdRequest] 0).Execution,
      (∃ m, (x.state m).server.world.sent 0 = [pwdRequest].flatMap (respond plainHost)) ∧
      ∃ m, (x.state m).shut = true ∧ ¬ (x.state m).server.world.Connected 0 ∧
        (x.state m).server.world.sent 0 = [pwdRequest].flatMap (respond plainHost)) ∧
    ∃ p, (halfClosingServer plainHost [pwdRequest] 0).Reachable p ∧ p.shut = true ∧
      p.server.world.received 0 = requestCodec.encodeAll [pwdRequest] ∧
      ∀ p' es, (halfClosingServer plainHost [pwdRequest] 0).Run p es p' →
        p'.server.world.sent 0 ≠ [pwdRequest].flatMap (respond plainHost) := by
  obtain ⟨hsafe, hprogress, hdoomed, -⟩ := half_close_answered plainHost [pwdRequest] 0 (by decide)
  constructor
  · obtain ⟨x, hinit, hcomes, htail⟩ := exists_patientRun
    obtain ⟨hidle, hshut, hnext, hgone, -⟩ := htail _ (Nat.le_refl _)
    refine ⟨x, ?_, _, hshut, hgone, ?_⟩
    · -- in the end everything has been read, and nothing is owed
      have hread : ∀ n, ¬ ∀ m, n ≤ m →
          ((serverOf x).state m).world.received 0 ≠ requestCodec.encodeAll [pwdRequest] := by
        intro n hunread
        obtain ⟨-, -, -, -, hreceived, -⟩ := htail _ (Nat.le_max_right n patientRun.length)
        exact hunread _ (Nat.le_max_left _ _) hreceived
      have hsent : ∀ n, ¬ ∀ m, n ≤ m → ((serverOf x).state m).world.Owes 0 := by
        intro n howes
        obtain ⟨-, -, -, -, -, hnone⟩ := htail _ (Nat.le_max_right n patientRun.length)
        exact hnone 0 (howes _ (Nat.le_max_left _ _))
      exact hprogress x hinit hcomes ⟨_, fun m hm => (htail m hm).1⟩
        ⟨fun n h => absurd h (hread n), fun n h => absurd h (hread n)⟩
        ⟨fun n h => absurd h (hsent n), fun n h => absurd h (hsent n)⟩
    · have hanswered := hsafe _ (x.reachable hinit patientRun.length)
      exact (hanswered.resolve_left (by omega)).resolve_left hgone
  · obtain ⟨p, hp, htest⟩ : ∃ p, (halfClosingServer plainHost [pwdRequest] 0).Reachable p ∧
        (p.shut && p.server.reads 0 && (p.server.world.received 0 == pwdFrame) &&
          (p.server.world.sent 0 == [])) = true :=
      halfClosing_reaches plainHost [pwdRequest] 0 impatientRun _ (by decide +kernel)
    simp only [Bool.and_eq_true, beq_iff_eq, reads_iff] at htest
    obtain ⟨⟨⟨hshut, hreads⟩, hreceived⟩, hsent⟩ := htest
    refine ⟨p, hp, hshut, hreceived, fun p' es hrun => ?_⟩
    refine hdoomed p p' es hp hshut hreads ?_ hrun
    rw [hsent, List.flatMap_singleton]
    exact (respond_ne_nil plainHost pwdRequest).symm

/-- **A half-closed client is not answered.** The only client sends one `PWD` request and shuts down
its writing side; both are there when the server reads. The client is removed with its request in
the queue, and has not been sent anything. A threaded server sends it the directory. -/
theorem half_closed_unanswered :
    (∃ p, (halfClosingServer plainHost [pwdRequest] 0).Reachable p ∧
      p.server.world.received 0 = requestCodec.encodeAll [pwdRequest] ∧
      p.server.world.sent 0 = [] ∧ ¬ Answered plainHost [pwdRequest] 0 p.server.world) ∧
    ∃ s, (Threaded.Transport.tcp.worker plainHost).Reachable s ∧
      s.received = requestCodec.encodeAll [pwdRequest] ∧ s.pc = .left .endOfFile ∧
      s.sent = [pwdRequest].flatMap (respond plainHost) := by
  constructor
  · obtain ⟨p, hp, htest⟩ : ∃ p, (halfClosingServer plainHost [pwdRequest] 0).Reachable p ∧
        (p.server.world.nextConn == 1 && !decide (p.server.world.Connected 0) &&
          p.server.world.received 0 == pwdFrame && p.server.world.sent 0 == []) = true :=
      halfClosing_reaches plainHost [pwdRequest] 0
        (impatientRun ++ meanwhile [.read .eof .fair true]) _ (by decide +kernel)
    simp only [Bool.and_eq_true, Bool.not_eq_true', decide_eq_false_iff_not, beq_iff_eq] at htest
    obtain ⟨⟨⟨hnext, hgone⟩, hreceived⟩, hsent⟩ := htest
    refine ⟨p, hp, hreceived, hsent, ?_⟩
    rintro (hcame | hconnected | hanswered)
    · omega
    · exact hgone hconnected
    · rw [hsent, List.flatMap_singleton] at hanswered
      exact respond_ne_nil plainHost pwdRequest hanswered.symm
  · obtain ⟨s, hs, hp⟩ := Threaded.Session.tcpWorker_reaches plainHost Threaded.Session.halfClosed
      (fun s => decide (s.pc = .left .endOfFile) && decide (s.received = pwdFrame) &&
        decide (s.sent = respond plainHost pwdRequest)) (by decide +kernel)
    simp only [Bool.and_eq_true, decide_eq_true_eq] at hp
    obtain ⟨⟨hpc, hreceived⟩, hsent⟩ := hp
    exact ⟨s, hs, hreceived, hpc, by rw [hsent, List.flatMap_singleton]⟩

end WireCommand.Uds
