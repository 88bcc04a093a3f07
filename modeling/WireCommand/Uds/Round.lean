import Mathlib.Data.Fintype.Card
import WireCommand.Foundation.Measure
import WireCommand.Uds.Polling
import WireCommand.Uds.ReadLoop

/-!
# The rounds of the poll server

Between two calls of `poll` the server makes one round: it visits the clients that `poll` has found
ready, accepts, and works off the queue. No loop of the round has a limit of its own. A client is read
until it has nothing more to send, and written to until it takes nothing more; connections are accepted
as long as there are any. `State.remaining` is what a round can still cost, wherever the server is in
it: a read uses up the space that queue and input buffer have, a send the output, an accept a slot, and
a visit is over when its entry is.

`comes_round` says that so every round ends, after a number of steps that no client can raise, and that
the server is never stuck in one.
-/

namespace WireCommand.Uds

open Foundation Foundation.Framing Protocol

variable {host : Host} {w w' : World} {i : Slot} {s s' : State} {e : Event}

/-! ## Where the server can be -/

/-- Not in `poll`. -/
def Pc.awake : Pc → Bool
  | .polling _ _ _ => false
  | _ => true

/-- The entries of the poll list that the round has still to do with. -/
def Pc.entries : Pc → Nat
  | .polling _ entries _ => entries.length
  | .serving _ todo => todo.length
  | .visiting _ _ _ todo => todo.length + 1
  | _ => 0

theorem buildPollList_length (clients : Clients) : (buildPollList clients).length ≤ maxClients := by
  rw [buildPollList, List.length_map]
  exact (List.length_filter_le _ _).trans (List.length_finRange).le

theorem fillRevents_length (entries : List PollEntry) (clients : List Revents) :
    (fillRevents entries clients).length ≤ entries.length := by
  rw [fillRevents, List.length_map, List.length_zip]
  exact Nat.min_le_left _ _

/-- **The poll list fits into its array.** -/
theorem Move.entries_le (h : Move host s e s') (hs : s.pc.entries ≤ maxClients) :
    s'.pc.entries ≤ maxClients := by
  cases h with
  | @signal pc => cases pc <;> exact hs
  | build => exact buildPollList_length _
  | @ready _ entries _ _ _ _ clients =>
      exact (fillRevents_length entries clients).trans hs
  | process | served => simp only; split <;> exact Nat.zero_le _
  | skip => exact (Nat.le_succ _).trans hs
  | visit =>
      simp only [Uds.visit, afterRead]
      split <;> exact hs
  | @read _ _ _ _ _ _ _ _ result => obtain ⟨iteration, w'⟩ := result; cases iteration with
    | again | done => exact hs
    | failed => exact (Nat.le_succ _).trans hs
  | @send _ _ _ _ _ _ _ result => obtain ⟨iteration, w'⟩ := result; cases iteration with
    | again | done => exact hs
    | failed => exact (Nat.le_succ _).trans hs
  | check => exact (Nat.le_succ _).trans hs
  | accept => simp only; split <;> exact Nat.zero_le _
  | _ => exact Nat.zero_le _

/-! ## What is left of a round -/

/-- The slots without a client. -/
def freeSlots (clients : Clients) : Finset Slot := Finset.univ.filter fun i => (clients i).fd = -1

theorem card_freeSlots_le (clients : Clients) : (freeSlots clients).card ≤ maxClients := by
  have hle := Finset.card_filter_le Finset.univ fun i => (clients i).fd = -1
  rwa [Finset.card_univ, Fintype.card_fin] at hle

/-- A client that takes a slot. -/
theorem card_freeSlots_update {clients : Clients} {client : Client} (hfree : (clients i).fd = -1)
    (hlive : client.fd ≠ -1) :
    (freeSlots (Function.update clients i client)).card < (freeSlots clients).card := by
  have hcard := card_filter_update (fun client : Client => client.fd = -1) hfree hlive
  exact Nat.lt_of_succ_le hcard.le

/-- The most that the visit of one client can cost. -/
def visitLimit : Nat := outputLimit + (maxQueuedRequests + 1) * inputLimit + 4

/-- The most that a round can still cost, but for interruptions and connections that are rejected. -/
def State.remaining (s : State) : Nat :=
  match s.pc with
  | .polling _ _ _ => 0
  | .finished _ => 0
  | .closed _ => 1
  | .closing _ next => 2 + (maxClients - next)
  | .buildPollList => 1
  | .processQueue => 2 + s.world.queue.length
  | .loopTest => 3 + maxClients + s.world.queue.length
  | .accepting => 4 + maxClients + maxQueuedRequests + (freeSlots s.world.clients).card
  | .serving _ todo => 5 + 2 * maxClients + maxQueuedRequests + visitLimit * todo.length
  | .visiting .check _ _ todo => 6 + 2 * maxClients + maxQueuedRequests + visitLimit * todo.length
  | .visiting .write entry _ todo =>
      7 + 2 * maxClients + maxQueuedRequests + visitLimit * todo.length +
        (s.world.clients entry.slot).output.length
  | .visiting .read entry _ todo =>
      8 + 2 * maxClients + maxQueuedRequests + visitLimit * todo.length + outputLimit +
        s.world.space entry.slot

/-- The most that a round can cost. -/
def roundLimit : Nat := 5 + 2 * maxClients + maxQueuedRequests + visitLimit * maxClients

/-- The call was interrupted, or a connection was rejected, and the loop goes round again. -/
def Event.idle : Event → Bool
  | .signal => true
  | .read .interrupted _ _ => true
  | .send .interrupted _ => true
  | .accept .interrupted _ _ => true
  | .accept (.accepted _) nonblockingOk _ => !nonblockingOk
  | _ => false

theorem World.space_le (w : World) (i : Slot) :
    w.space i ≤ (maxQueuedRequests + 1) * inputLimit := by
  unfold World.space
  rw [Nat.succ_mul]
  exact Nat.add_le_add (Nat.mul_le_mul_right _ (Nat.sub_le _ _)) (Nat.sub_le _ _)

theorem World.Valid.output_le (hv : w.Valid host) (hi : w.Live i) :
    (w.clients i).output.length ≤ outputLimit :=
  (hv.client i hi).output_limit ▸ (w.clients i).output.length_le_maxSize

/-- A visit costs no more than its limit. -/
theorem remaining_visiting_le (phase : Phase) {entry : PollEntry} (listener : Revents)
    (todo : List PollEntry) (stop : Bool) (hv : w.Valid host) (hi : w.Live entry.slot) :
    State.remaining ⟨.visiting phase entry listener todo, stop, w⟩ + 1 ≤
      5 + 2 * maxClients + maxQueuedRequests + visitLimit * (todo.length + 1) := by
  have houtput := hv.output_le hi
  have hspace := w.space_le entry.slot
  rw [Nat.mul_succ]
  cases phase <;> simp only [State.remaining] <;> unfold visitLimit <;> omega

theorem State.Valid.remaining_le (hs : s.Valid host) (hentries : s.pc.entries ≤ maxClients) :
    s.remaining ≤ roundLimit := by
  obtain ⟨pc, stop, w⟩ := s
  have hqueue : w.queue.length ≤ maxQueuedRequests := hs.world.queue_le
  have hfree := card_freeSlots_le w.clients
  have hlimit : visitLimit * pc.entries ≤ visitLimit * maxClients :=
    Nat.mul_le_mul_left _ hentries
  cases pc with
  | visiting phase entry listener todo =>
      have hw : w.Valid host := hs.world
      have hvisit := remaining_visiting_le phase listener todo stop hw hs.pc.1.1
      simp only [Pc.entries] at hlimit
      unfold roundLimit
      omega
  | _ =>
      simp only [State.remaining, Pc.entries] at hlimit ⊢
      unfold roundLimit
      omega

/-! ## Every step -/

/-- An iteration of the write loop that goes on has sent something, or was interrupted. -/
theorem writeClient_again {outcome : SendOutcome} (h : writeClient w i outcome = some (.again, w')) :
    (outcome = .interrupted ∧ w' = w) ∨
      (w'.clients i).output.length < (w.clients i).output.length := by
  unfold writeClient at h
  simp only at h
  split at h
  · cases h
  · cases outcome with
    | interrupted => cases h; exact .inl ⟨rfl, rfl⟩
    | wouldBlock | failed => cases h
    | sent count =>
        simp only at h
        split at h
        · next hcount =>
            split at h
            · cases h
            · next output hconsume =>
                cases h
                obtain ⟨hdata, -, -⟩ := Buffer.consume_ok hconsume
                refine .inr ?_
                rw [setClient_self]
                simp only [Buffer.length, hdata, List.length_drop] at hcount ⊢
                omega
        · cases h

/-- An iteration of the accept loop that goes on has given away a slot, unless the call was interrupted
or the connection rejected. -/
theorem acceptClients_again {outcome : AcceptOutcome} {nonblockingOk released : Bool}
    (h : acceptClients w outcome nonblockingOk released = some (true, w')) :
    (freeSlots w'.clients).card + 1 ≤ (freeSlots w.clients).card +
      if (Event.accept outcome nonblockingOk released).idle then 1 else 0 := by
  unfold acceptClients at h
  split at h
  · next hfree =>
      cases outcome with
      | interrupted => cases h; exact le_refl _
      | wouldBlock | failed => cases h
      | accepted fd =>
          simp only at h
          split at h
          · next hfd =>
              cases nonblockingOk with
              | false => cases h; exact le_refl _
              | true =>
                  obtain ⟨i, hi, hadd⟩ := addClient_of_free hfree fd w.nextConn
                  simp only [World.connect, hadd, if_true] at h
                  cases h
                  exact card_freeSlots_update hi (by simp only [Client.connected]; omega)
          · cases h
  · cases h

theorem acceptClients_done {outcome : AcceptOutcome} {nonblockingOk released : Bool}
    (h : acceptClients w outcome nonblockingOk released = some (false, w')) : w' = w := by
  unfold acceptClients at h
  split at h
  · cases outcome with
    | interrupted => cases h
    | wouldBlock | failed => cases h; rfl
    | accepted fd =>
        simp only at h
        split at h
        · split at h
          · split at h <;> cases h
          · cases h
        · cases h
  · cases h; rfl

/-- **Every step of a round brings its end closer**, but for interruptions and rejections. -/
theorem Move.remaining (h : Move host s e s') (hs : s.Valid host) (hawake : s.pc.awake = true) :
    s'.remaining + 1 ≤ s.remaining + if e.idle then 1 else 0 := by
  have hs' := h.valid hs
  have hqueue := hs.world.queue_le
  cases h with
  | @signal pc stop w _ =>
      have hpc : pc.interrupt = pc := by
        cases pc with
        | polling => cases hawake
        | _ => rfl
      rw [hpc]
      exact le_refl _
  | stop | enter | build | closed | shutdown => simp only [State.remaining, Event.idle]; omega
  | @process stop w env released again w' hprocess =>
      cases again with
      | false =>
          show 1 + 1 ≤ 2 + w.queue.length + 0
          omega
      | true =>
          have hlength : w'.queue.length < w.queue.length := processQueue_length hs.world hprocess
          show 2 + w'.queue.length + 1 ≤ 2 + w.queue.length + 0
          omega
  | interrupted | pollFailed | listenerBroken | ready => cases hawake
  | @served listener stop w =>
      have hfree := card_freeSlots_le w.clients
      simp only at hqueue
      cases hin : listener.pollIn <;>
        simp only [State.remaining, Event.idle, if_true, if_false, Bool.false_eq_true] <;> omega
  | skip =>
      simp only [State.remaining, Event.idle, List.length_cons, Nat.mul_succ, visitLimit]
      omega
  | @visit listener entry todo stop w hlive =>
      have hw : w.Valid host := hs.world
      have hserving : State.remaining ⟨.serving listener (entry :: todo), stop, w⟩ =
          5 + 2 * maxClients + maxQueuedRequests + visitLimit * (todo.length + 1) := rfl
      rw [hserving]
      simp only [Uds.visit, afterRead]
      split
      · exact (remaining_visiting_le _ listener todo stop hw hlive).trans (Nat.le_add_right _ _)
      · exact (remaining_visiting_le _ listener todo stop hw hlive).trans (Nat.le_add_right _ _)
  | @read entry listener todo stop w outcome env released result hread =>
      obtain ⟨iteration, w'⟩ := result
      have hready : ReadyToRead w entry.slot :=
        ⟨(hs.world.client _ hs.pc.1.1).input_limit, hqueue⟩
      obtain ⟨⟨-, hspace⟩, hagain⟩ := readClient_space (e := ⟨outcome, env⟩) hready hread
      cases iteration with
      | again =>
          simp only [continueVisit, State.remaining]
          rcases hagain rfl with rfl | hpos
          · simp only [Event.idle, if_true]
            omega
          · omega
      | done =>
          have houtput : (w'.clients entry.slot).output.length ≤ outputLimit :=
            hs'.world.output_le hs'.pc.1.1
          simp only [continueVisit, afterRead]
          split <;> simp only [State.remaining] <;> omega
      | failed =>
          simp only [continueVisit, State.remaining]
          omega
  | @send entry listener todo stop w outcome released result hsend =>
      obtain ⟨iteration, w'⟩ := result
      cases iteration with
      | again =>
          simp only [continueVisit, State.remaining]
          rcases writeClient_again hsend with ⟨rfl, rfl⟩ | hlt
          · simp only [Event.idle, if_true]
            omega
          · omega
      | done | failed =>
          simp only [continueVisit, State.remaining]
          omega
  | check => simp only [State.remaining, Event.idle]; omega
  | @accept stop w outcome nonblockingOk released again w' haccept =>
      cases again with
      | true =>
          have hcard := acceptClients_again haccept
          simp only [State.remaining, if_true]
          omega
      | false =>
          rw [acceptClients_done haccept]
          simp only at hqueue
          simp only [State.remaining, if_false, Bool.false_eq_true]
          omega
  | close hnext => simp only [State.remaining, Event.idle]; omega

/-- The server is never stuck in a round. -/
theorem State.moves (host : Host) (hawake : s.pc.awake = true)
    (hreturned : ∀ result, s.pc ≠ .finished result) :
    ∃ e s', e.idle = false ∧ step host s e = some s' := by
  obtain ⟨pc, stop, w⟩ := s
  cases pc with
  | polling => cases hawake
  | finished result => exact absurd rfl (hreturned result)
  | loopTest | buildPollList => exact ⟨.tick, _, rfl, rfl⟩
  | serving listener todo => cases todo <;> exact ⟨.tick, _, rfl, rfl⟩
  | processQueue => exact ⟨.process .fair true, _, rfl, rfl⟩
  | accepting =>
      refine ⟨.accept .wouldBlock true true, ?_⟩
      simp only [step, acceptClients]
      split <;> exact ⟨_, rfl, rfl⟩
  | visiting phase entry listener todo =>
      cases phase with
      | read =>
          refine ⟨.read .wouldBlock .fair true, ?_⟩
          simp only [step, readClient]
          split <;> exact ⟨_, rfl, rfl⟩
      | write =>
          refine ⟨.send .wouldBlock true, ?_⟩
          simp only [step, writeClient]
          split <;> exact ⟨_, rfl, rfl⟩
      | check => exact ⟨.close true, _, rfl, rfl⟩
  | closing result next =>
      refine ⟨.close true, ?_⟩
      simp only [step]
      split <;> exact ⟨_, rfl, rfl⟩
  | closed result => exact ⟨.shutdown (.ok ()) (.ok ()), _, rfl, rfl⟩

/-! ## Every round -/

/-- What the rounds rest on. -/
structure State.Rounds (host : Host) (s : State) : Prop where
  valid : s.Valid host
  entries : s.pc.entries ≤ maxClients

theorem rounds_inductive (host : Host) : (server host).Inductive (State.Rounds host) where
  init := by
    rintro s ⟨openFds, stopRequested, rfl⟩
    exact ⟨valid_start openFds stopRequested, Nat.zero_le _⟩
  step _ _ _ hs hstep :=
    ⟨(step_move hstep).valid hs.valid, (step_move hstep).entries_le hs.entries⟩

/-- The steps that are not made in `poll`. -/
def roundServer (host : Host) : StepSystem State Event :=
  (server host).restrict fun s _ => s.pc.awake = true

/-- **The poll server comes round.** Wherever it is, after `roundLimit` steps it is in `poll` again or
has returned, and it is never stuck on the way. Only signals, interrupted calls and connections whose
descriptors cannot be configured are not counted; whatever the clients do is. -/
theorem comes_round (hs : (server host).Reachable s) :
    (∀ es s', (roundServer host).Run s es s' → es.length ≤ roundLimit + es.countP Event.idle) ∧
      (s.pc.awake = true → (∀ result, s.pc ≠ .finished result) →
        ∃ e s', e.idle = false ∧ step host s e = some s') := by
  have hrounds := (rounds_inductive host).reachable hs
  refine ⟨?_, State.moves host⟩
  intro es s' hrun
  have hlength : es.length + s'.remaining ≤ s.remaining + 1 * es.countP Event.idle :=
    ((rounds_inductive host).restrict _).length_le
      (fun _ _ _ hs hstep => (step_move hstep.1).remaining hs.valid hstep.2) hrounds hrun
  have hle := hrounds.valid.remaining_le hrounds.entries
  omega

/-- A client's request is read and run, and the round ends. -/
theorem comes_round_request : ∃ s es s', (server plainHost).Reachable s ∧
    (roundServer plainHost).Run s es s' ∧ es.length = 9 ∧ s'.pc.awake = false ∧
    es.length ≤ roundLimit + es.countP Event.idle := by
  obtain ⟨s, hs, hp⟩ := server_reaches plainHost (connectRound ++ requestRound.take 4)
    (fun s => (StepSystem.exec (StepSystem.guard (fun s _ => s.pc.awake) (step plainHost)) s
      (requestRound.drop 4 ++ [.process .fair true, .tick])).any fun s' => !s'.pc.awake)
    (by decide +kernel)
  rw [Option.any_eq_true] at hp
  obtain ⟨s', hexec, hasleep⟩ := hp
  have hrun : (roundServer plainHost).Run s _ s' := StepSystem.run_restrict_of_exec hexec
  exact ⟨s, _, s', hs, hrun, rfl, by simpa using hasleep, (comes_round hs).1 _ s' hrun⟩

end WireCommand.Uds
