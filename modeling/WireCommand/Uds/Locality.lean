import WireCommand.Uds.Polling

/-!
# Faults stay local

Whatever the server does, it does for one client at a time, and a client that fails is removed.
`fault_local` says that nobody else notices: the slots of the other clients and their requests in
the shared queue, in their order, are what they were, and of a removed client no request is left.
`Touches` already has this for each descriptor apart; what is added here is the order in which the
requests of different clients stand in the queue.
-/

namespace WireCommand.Uds

open Foundation Foundation.Framing Protocol

variable {host : Host} {w w' : World} {i : Slot} {s s' : State} {e : Event}

/-- The queue without the requests of one client. -/
def ofOthers (queue : RequestQueue) (clientFd : Int) : RequestQueue :=
  queue.filter (·.clientFd ≠ clientFd)

/-- The client in slot `i` was dealt with, and nobody else noticed. -/
structure Local (i : Slot) (w w' : World) : Prop where
  clients : ∀ j, j ≠ i → w'.clients j = w.clients j
  queue : ofOthers w'.queue (w.clients i).fd = ofOthers w.queue (w.clients i).fd
  /-- Of a client that was removed no request is left. -/
  removed : ¬ w'.Live i → ∀ entry ∈ w'.queue, entry.clientFd ≠ (w.clients i).fd

/-- The client is still there, and only its own requests came or went. -/
theorem Local.of_touches (hi : w.Live i) (ht : Touches i w w')
    (hqueue : ofOthers w'.queue (w.clients i).fd = ofOthers w.queue (w.clients i).fd) :
    Local i w w' where
  clients := ht.clients
  queue := hqueue
  removed hgone := absurd (ht.live.mpr hi) hgone

theorem Local.refl (hi : w.Live i) : Local i w w where
  clients _ _ := rfl
  queue := rfl
  removed hgone := absurd hi hgone

/-- Removing the client, after something was done for it, leaves nothing of it. -/
theorem Local.remove (hi : w.Live i) (ht : Touches i w w')
    (hqueue : ofOthers w'.queue (w.clients i).fd = ofOthers w.queue (w.clients i).fd)
    (released : Bool) : Local i w (removeClient w' i released) := by
  have heq := removeClient_eq (ht.live.mpr hi) released
  have hgone : (removeClient w' i released).queue = ofOthers w'.queue (w.clients i).fd := by
    rw [heq, ht.fd]
    rfl
  refine ⟨?_, ?_, ?_⟩
  · intro j hj
    rw [removeClient_clients released hj, ht.clients j hj]
  · rw [hgone, hqueue]
    simp [ofOthers]
  · intro _ entry hentry
    rw [hgone] at hentry
    simpa using (List.mem_filter.mp hentry).2

/-! ## The functions -/

theorem ofOthers_queued (queue : RequestQueue) (fd : Int) (conn : Nat) (parsed : List Request) :
    ofOthers (queue ++ parsed.map (queued fd conn)) fd = ofOthers queue fd := by
  have hnone : ofOthers (parsed.map (queued fd conn)) fd = [] := by
    apply List.filter_eq_nil_iff.mpr
    intro entry hentry
    obtain ⟨r, -, rfl⟩ := List.mem_map.mp hentry
    simp
  unfold ofOthers at hnone ⊢
  rw [List.filter_append, hnone, List.append_nil]

/-- A read adds requests of its own client alone. -/
theorem readClient_ofOthers {outcome : ReadOutcome} {env : ReadEnv} {iteration : Iteration}
    (hv : w.Valid host) (hi : w.Live i)
    (h : readClient w i outcome env = some (iteration, w')) :
    ofOthers w'.queue (w.clients i).fd = ofOthers w.queue (w.clients i).fd := by
  cases readClient_read hv hi h with
  | eof | interrupted | wouldBlock | failed | lost _ => rfl
  | parsed _ _ _ _ _ _ => exact ofOthers_queued _ _ _ _

/-- A write leaves the queue alone. -/
theorem writeClient_queue {outcome : SendOutcome} {iteration : Iteration}
    (h : writeClient w i outcome = some (iteration, w')) : w'.queue = w.queue := by
  cases writeClient_wrote h with
  | nothing | interrupted | wouldBlock | failed => rfl
  | sent _ _ => rfl

/-- The iteration of a client's read or write, with the removal that may follow. -/
theorem continueVisit_local {entry : PollEntry} {listener : Revents} {todo : List PollEntry}
    {next : Pc} {released : Bool} {iteration : Iteration} (hi : s.world.Live entry.slot)
    (ht : Touches entry.slot s.world w')
    (hqueue : ofOthers w'.queue (s.world.clients entry.slot).fd =
      ofOthers s.world.queue (s.world.clients entry.slot).fd) :
    Local entry.slot s.world
      (continueVisit s entry listener todo next released (iteration, w')).world := by
  cases iteration with
  | again => exact .of_touches hi ht hqueue
  | done => exact .of_touches hi ht hqueue
  | failed => exact .remove hi ht hqueue released

/-- The client whose request is at the head of the queue. -/
def headClient (w : World) : Option Slot :=
  (Queue.peek w.queue).bind fun first => findClient w.clients first.clientFd

/-- There is one client with a descriptor, and it is the one that is found. -/
theorem headClient_eq (hv : w.Valid host) {first : QueuedRequest} {rest : RequestQueue} {j : Slot}
    (hhead : headClient w = some i) (hqueue : w.queue = first :: rest) (hj : w.Live j)
    (hfd : (w.clients j).fd = first.clientFd) : i = j := by
  rw [headClient, hqueue, Queue.peek_cons, Option.bind_some] at hhead
  have hi := findClient_some hhead
  apply hv.fd_inj i j _ hj (hi.trans hfd.symm)
  unfold World.Live at hj ⊢
  rwa [hi, ← hfd]

/-- Running the request at the head of the queue concerns its client alone. -/
theorem processQueue_local (hv : w.Valid host) (hhead : headClient w = some i) (hi : w.Live i)
    (env : Response.Env) (released : Bool) :
    Local i w (processQueue host w env released).2 := by
  have hrest : ∀ {first rest}, w.queue = first :: rest → (w.clients i).fd = first.clientFd →
      ofOthers rest (w.clients i).fd = ofOthers w.queue (w.clients i).fd := by
    intro first rest hqueue hfd
    simp [hqueue, ofOthers, hfd]
  have hspec := processQueue_spec hv env released
  generalize processQueue host w env released = result at hspec ⊢
  cases hspec with
  | waits _ => exact .refl hi
  | answered hqueue hj hfd _ _ =>
      obtain rfl := headClient_eq hv hhead hqueue hj hfd
      exact .of_touches hi (touches_afterDequeue hv hqueue hfd _) (hrest hqueue hfd)
  | failed hqueue hj hfd _ _ =>
      obtain rfl := headClient_eq hv hhead hqueue hj hfd
      exact .remove hi (touches_afterDequeue hv hqueue hfd _) (hrest hqueue hfd) released

/-! ## The server -/

/-- The client the next step is for: the one that is visited, the one whose request is at the head
of the queue when the queue has its turn, or the one that is closed at the end. -/
def State.handles (s : State) : Option Slot :=
  match s.pc with
  | .visiting _ entry _ _ => some entry.slot
  | .processQueue => headClient s.world
  | .closing _ next => if h : next < maxClients then some ⟨next, h⟩ else none
  | _ => none

/-- **Faults stay local.** A step that is for one client, whatever comes of it, leaves every other
client's slot and every other client's requests as they were, in their order; and if the client is
gone afterwards, none of its requests is left. -/
theorem fault_local (hs : (server host).Reachable s) (hi : s.world.Live i)
    (hhandles : s.handles = some i) (hstep : step host s e = some s') :
    (∀ j, j ≠ i → s'.world.clients j = s.world.clients j) ∧
    ofOthers s'.world.queue (s.world.clients i).fd =
      ofOthers s.world.queue (s.world.clients i).fd ∧
    (¬ s'.world.Live i → ∀ entry ∈ s'.world.queue,
      entry.clientFd ≠ (s.world.clients i).fd) := by
  obtain ⟨hw, hpc⟩ := valid_of_reachable hs
  suffices hlocal : Local i s.world s'.world from
    ⟨hlocal.clients, hlocal.queue, hlocal.removed⟩
  cases step_move hstep with
  | signal _ => exact .refl hi
  | @process stop w env released again w' hprocess =>
      have hlocal := processQueue_local hw hhandles hi env released
      rwa [hprocess] at hlocal
  | @read entry listener todo stop w outcome env released result hread =>
      obtain ⟨iteration, w'⟩ := result
      cases hhandles
      exact continueVisit_local hi (readClient_spec hw hi hread).1 (readClient_ofOthers hw hi hread)
  | @send entry listener todo stop w outcome released result hsend =>
      obtain ⟨iteration, w'⟩ := result
      cases hhandles
      apply continueVisit_local hi (writeClient_spec hw hi hsend).1
      rw [writeClient_queue hsend]
  | @check entry listener todo stop w released =>
      cases hhandles
      simp only
      split
      · exact .remove hi (.refl hw) rfl released
      · exact .refl hi
  | @close result next stop w released hnext =>
      simp only [State.handles, dif_pos hnext, Option.some.injEq] at hhandles
      subst hhandles
      exact .remove hi (.refl hw) rfl released
  | closed _ => exact .refl hi
  | _ => cases hhandles

/-- Six bytes no frame begins with. -/
def malformedHeader : Bytes := [0, 6, 0, 9, 0, 0]

/-- The second client sends a malformed request while the first one's request is in the queue. It is
removed, and the first client and its request stay. -/
theorem fault_local_run : ∃ s s', (server plainHost).Reachable s ∧ s.world.queue ≠ [] ∧
    step plainHost s (.read (.data malformedHeader) .fair true) = some s' ∧
    ¬ s'.world.Live slot1 ∧ s'.world.clients slot0 = s.world.clients slot0 ∧
    ofOthers s'.world.queue (s.world.clients slot1).fd =
      ofOthers s.world.queue (s.world.clients slot1).fd := by
  obtain ⟨s, hs, hp⟩ := server_reaches plainHost (connectTwo ++ firstClientSends pwdFrame)
    (fun s => decide (s.pc.readSlot = some slot1) && decide (s.world.Live slot1) &&
      decide (s.world.queue ≠ []) &&
      (step plainHost s (.read (.data malformedHeader) .fair true)).any
        fun s' : State => !decide (s'.world.Live slot1)) (by decide +kernel)
  simp only [Bool.and_eq_true, decide_eq_true_eq] at hp
  obtain ⟨⟨⟨hread, hlive⟩, hqueue⟩, hremoved⟩ := hp
  obtain ⟨entry, listener, todo, hpc, hslot⟩ := readSlot_eq_some hread
  have hhandles : s.handles = some slot1 := by rw [State.handles, hpc, ← hslot]
  cases hstep : step plainHost s (.read (.data malformedHeader) .fair true) with
  | none => rw [hstep] at hremoved; cases hremoved
  | some s' =>
      rw [hstep, Option.any_some, Bool.not_eq_true', decide_eq_false_iff_not] at hremoved
      obtain ⟨hclients, hothers, -⟩ := fault_local hs hlive hhandles hstep
      exact ⟨s, s', hs, hqueue, hstep, hremoved, hclients slot0 (by decide), hothers⟩

end WireCommand.Uds
