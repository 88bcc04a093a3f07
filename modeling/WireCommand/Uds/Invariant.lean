import WireCommand.Uds.Model
import WireCommand.Foundation.Ledger

/-!
# What holds between two steps of the poll server

`World.Valid` is the invariant of the world. It has a part for each client (`ClientOk`: an open
descriptor, buffers with their limits, an input without a whole frame, and a balanced ledger) and a
part for the table as a whole (descriptors and connections are not shared, every queued request has
a client, the queue is within its limit).

Everything the server does for a client leaves the other clients alone. `Touches i w w'` says so
once: from `w` to `w'` only slot `i`, its connection's bytes and its descriptor's requests changed.
From it follow the two rules all functions are verified with: `Valid.touch`, when the client is
still in order, and `Valid.remove`, when it is not and is removed.
-/

namespace WireCommand.Uds

open Foundation.Framing Protocol

/-- A request as the queue holds it. -/
def queued (fd : Int) (conn : Nat) (r : Request) : QueuedRequest := ⟨fd, r.type, r.argument, conn⟩

@[simp] theorem queued_clientFd (fd : Int) (conn : Nat) (r : Request) :
    (queued fd conn r).clientFd = fd := rfl

@[simp] theorem setClient_self (w : World) (i : Slot) (client : Client) :
    (w.setClient i client).clients i = client := Function.update_self ..

theorem setClient_of_ne (w : World) {i j : Slot} (client : Client) (h : j ≠ i) :
    (w.setClient i client).clients j = w.clients j := Function.update_of_ne h ..

@[simp] theorem noteReceived_self (w : World) (c : Nat) (bytes : Bytes) :
    (w.noteReceived c bytes).received c = w.received c ++ bytes := Function.update_self ..

/-- A client that is in order. -/
structure ClientOk (host : Host) (w : World) (client : Client) : Prop where
  fd_nonneg : 0 ≤ client.fd
  fd_open : client.fd ∈ w.openFds
  conn_lt : client.conn < w.nextConn
  input_limit : client.input.maxSize = inputLimit
  output_limit : client.output.maxSize = outputLimit
  parsed : requestVerdict client.input.data = .needMore
  balanced : ∃ answered pending,
    Ledger requestCodec (respond host) (w.received client.conn) (w.sent client.conn)
      answered pending client.input.data client.output.data ∧
    Queue.ofClient w.queue client.fd = pending.map (queued client.fd client.conn)

/-- The clients differ in `f`. -/
def World.Separates {α : Type} (w : World) (f : Client → α) : Prop :=
  ∀ i j, w.Live i → w.Live j → f (w.clients i) = f (w.clients j) → i = j

/-- Clients that stay, or that stay out, differ as before. -/
theorem World.Separates.mono {α : Type} {w w' : World} {f : Client → α} (h : w.Separates f)
    (hlive : ∀ i, w'.Live i → w.Live i ∧ f (w'.clients i) = f (w.clients i)) :
    w'.Separates f := by
  intro i j hi hj hf
  obtain ⟨hi, hfi⟩ := hlive i hi
  obtain ⟨hj, hfj⟩ := hlive j hj
  rw [hfi, hfj] at hf
  exact h i j hi hj hf

/-- The invariant of the world. -/
structure World.Valid (host : Host) (w : World) : Prop where
  client : ∀ i, w.Live i → ClientOk host w (w.clients i)
  fd_inj : w.Separates Client.fd
  conn_inj : w.Separates Client.conn
  owned : ∀ entry ∈ w.queue, ∃ i, w.Live i ∧ (w.clients i).fd = entry.clientFd
  queue_le : w.queue.length ≤ maxQueuedRequests
  fresh : ∀ c, w.nextConn ≤ c → w.received c = [] ∧ w.sent c = []

/-- Only the client in slot `i` is concerned: it stays, and the rest is as it was. -/
structure Touches (i : Slot) (w w' : World) : Prop where
  fd : (w'.clients i).fd = (w.clients i).fd
  conn : (w'.clients i).conn = (w.clients i).conn
  clients : ∀ j, j ≠ i → w'.clients j = w.clients j
  openFds : w'.openFds = w.openFds
  nextConn : w'.nextConn = w.nextConn
  received : ∀ c, c ≠ (w.clients i).conn → w'.received c = w.received c
  sent : ∀ c, c ≠ (w.clients i).conn → w'.sent c = w.sent c
  queue : ∀ fd, fd ≠ (w.clients i).fd → Queue.ofClient w'.queue fd = Queue.ofClient w.queue fd
  owned : ∀ entry ∈ w'.queue, entry.clientFd = (w.clients i).fd ∨ entry ∈ w.queue
  queue_le : w'.queue.length ≤ maxQueuedRequests

variable {host : Host} {w w' : World} {i : Slot}

/-! ## The two rules -/

/-- A client stays in order when nothing of its own changes. -/
theorem ClientOk.frame {client : Client} (h : ClientOk host w client)
    (hopen : client.fd ∈ w'.openFds) (hnext : w.nextConn ≤ w'.nextConn)
    (hreceived : w'.received client.conn = w.received client.conn)
    (hsent : w'.sent client.conn = w.sent client.conn)
    (hqueue : Queue.ofClient w'.queue client.fd = Queue.ofClient w.queue client.fd) :
    ClientOk host w' client where
  fd_nonneg := h.fd_nonneg
  fd_open := hopen
  conn_lt := Nat.lt_of_lt_of_le h.conn_lt hnext
  input_limit := h.input_limit
  output_limit := h.output_limit
  parsed := h.parsed
  balanced := by rw [hreceived, hsent, hqueue]; exact h.balanced

theorem Touches.live (ht : Touches i w w') {j : Slot} : w'.Live j ↔ w.Live j := by
  unfold World.Live
  by_cases hj : j = i
  · rw [hj, ht.fd]
  · rw [ht.clients j hj]

theorem Touches.fd_eq (ht : Touches i w w') (j : Slot) :
    (w'.clients j).fd = (w.clients j).fd := by
  by_cases hj : j = i
  · rw [hj, ht.fd]
  · rw [ht.clients j hj]

theorem Touches.conn_eq (ht : Touches i w w') (j : Slot) :
    (w'.clients j).conn = (w.clients j).conn := by
  by_cases hj : j = i
  · rw [hj, ht.conn]
  · rw [ht.clients j hj]

theorem Touches.connected (ht : Touches i w w') (c : Nat) : w'.Connected c ↔ w.Connected c := by
  simp only [World.Connected, ht.live, ht.conn_eq]

/-- The other clients are still in order. -/
theorem Touches.others (ht : Touches i w w') (hv : w.Valid host) (hi : w.Live i) {j : Slot}
    (hj : w.Live j) (hne : j ≠ i) : ClientOk host w' (w.clients j) := by
  have hfd : (w.clients j).fd ≠ (w.clients i).fd := fun h => hne (hv.fd_inj j i hj hi h)
  have hconn : (w.clients j).conn ≠ (w.clients i).conn := fun h => hne (hv.conn_inj j i hj hi h)
  have hok := hv.client j hj
  exact hok.frame (by rw [ht.openFds]; exact hok.fd_open) (by rw [ht.nextConn])
    (ht.received _ hconn) (ht.sent _ hconn) (ht.queue _ hfd)

theorem Touches.fresh (ht : Touches i w w') (hv : w.Valid host) (hi : w.Live i) (c : Nat)
    (hc : w'.nextConn ≤ c) : w'.received c = [] ∧ w'.sent c = [] := by
  have hlt := (hv.client i hi).conn_lt
  rw [ht.nextConn] at hc
  have hne : c ≠ (w.clients i).conn := by omega
  rw [ht.received c hne, ht.sent c hne]
  exact hv.fresh c hc

/-- **The first rule**: what was done for the client left it in order. -/
theorem World.Valid.touch (hv : w.Valid host) (hi : w.Live i) (ht : Touches i w w')
    (hok : ClientOk host w' (w'.clients i)) : w'.Valid host where
  client j hj := by
    by_cases hne : j = i
    · rw [hne]; exact hok
    · rw [ht.clients j hne]
      exact ht.others hv hi (ht.live.mp hj) hne
  fd_inj := hv.fd_inj.mono fun j hj => ⟨ht.live.mp hj, ht.fd_eq j⟩
  conn_inj := hv.conn_inj.mono fun j hj => ⟨ht.live.mp hj, ht.conn_eq j⟩
  owned entry hentry := by
    rcases ht.owned entry hentry with hfd | hold
    · exact ⟨i, ht.live.mpr hi, by rw [ht.fd, hfd]⟩
    · obtain ⟨j, hj, hfd⟩ := hv.owned entry hold
      exact ⟨j, ht.live.mpr hj, by rw [ht.fd_eq, hfd]⟩
  queue_le := ht.queue_le
  fresh := ht.fresh hv hi

/-! ## Removal -/

/-- A removed client's slot. -/
def Client.removed (client : Client) : Client :=
  { client with fd := -1, input := client.input.destroy, output := client.output.destroy }

theorem removeClient_eq (hi : w.Live i) (released : Bool) :
    removeClient w i released =
      { w with
        clients := Function.update w.clients i (w.clients i).removed
        queue := Queue.discardClient w.queue (w.clients i).fd
        openFds := if released then w.openFds.erase (w.clients i).fd else w.openFds } := by
  unfold removeClient
  simp only
  rw [if_neg hi]
  rfl

theorem removeClient_of_free (hi : ¬ w.Live i) (released : Bool) :
    removeClient w i released = w := by
  unfold World.Live at hi
  unfold removeClient
  rw [if_pos (not_not.mp hi)]

theorem removeClient_live (released : Bool) {j : Slot} :
    (removeClient w i released).Live j ↔ w.Live j ∧ j ≠ i := by
  by_cases hi : w.Live i
  · rw [removeClient_eq hi]
    unfold World.Live
    by_cases hj : j = i
    · subst hj; simp [Client.removed]
    · simp [hj]
  · rw [removeClient_of_free hi]
    constructor
    · intro hj
      exact ⟨hj, fun h => hi (h ▸ hj)⟩
    · exact And.left

theorem removeClient_clients (released : Bool) {j : Slot} (hne : j ≠ i) :
    (removeClient w i released).clients j = w.clients j := by
  by_cases hi : w.Live i
  · rw [removeClient_eq hi]
    exact Function.update_of_ne hne _ _
  · rw [removeClient_of_free hi]

/-- **The second rule**: what was done for the client may have left it in any state, and it is
removed. -/
theorem World.Valid.remove (hv : w.Valid host) (hi : w.Live i) (ht : Touches i w w')
    (released : Bool) : (removeClient w' i released).Valid host := by
  have hi' : w'.Live i := ht.live.mpr hi
  have hlive : ∀ {j}, (removeClient w' i released).Live j → w.Live j ∧ j ≠ i := by
    intro j hj
    obtain ⟨hj', hne⟩ := (removeClient_live released).mp hj
    exact ⟨ht.live.mp hj', hne⟩
  have hclients : ∀ {j}, j ≠ i → (removeClient w' i released).clients j = w.clients j := by
    intro j hne
    rw [removeClient_clients released hne, ht.clients j hne]
  refine ⟨?_, ?_, ?_, ?_, ?_, ?_⟩
  · intro j hj
    obtain ⟨hj, hne⟩ := hlive hj
    have hfd : (w.clients j).fd ≠ (w'.clients i).fd := by
      rw [ht.fd]
      exact fun h => hne (hv.fd_inj j i hj hi h)
    have hok := ht.others hv hi hj hne
    rw [hclients hne, removeClient_eq hi']
    refine hok.frame ?_ (le_refl _) rfl rfl (Queue.ofClient_discardClient_of_ne hfd)
    split
    · exact Finset.mem_erase.mpr ⟨hfd, hok.fd_open⟩
    · exact hok.fd_open
  · exact hv.fd_inj.mono fun j hj => ⟨(hlive hj).1, by rw [hclients (hlive hj).2]⟩
  · exact hv.conn_inj.mono fun j hj => ⟨(hlive hj).1, by rw [hclients (hlive hj).2]⟩
  · intro entry hentry
    rw [removeClient_eq hi'] at hentry
    obtain ⟨hmem, hne⟩ := Queue.mem_discardClient.mp hentry
    rw [ht.fd] at hne
    -- a request that is left belongs to another client, and that one is still there
    obtain ⟨j, hj, hfd⟩ := hv.owned entry ((ht.owned entry hmem).resolve_left hne)
    have hji : j ≠ i := by
      rintro rfl
      exact hne hfd.symm
    exact ⟨j, (removeClient_live released).mpr ⟨ht.live.mpr hj, hji⟩, by rw [hclients hji, hfd]⟩
  · rw [removeClient_eq hi']
    exact le_trans (Queue.discardClient_length_le _ _) ht.queue_le
  · intro c hc
    rw [removeClient_eq hi'] at hc ⊢
    exact ht.fresh hv hi c hc

end WireCommand.Uds
