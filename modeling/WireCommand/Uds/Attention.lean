import WireCommand.Foundation.Fairness
import WireCommand.Uds.Round

/-!
# The attention of the server

A client is read from and written to when `poll` has reported it. That the server gets there is its own
doing: it comes back to `poll` again and again, it asks for every client, and it visits whatever `poll`
has found, unless the client is removed before. What `poll` finds and what the calls return is up to the
environment, and `Obliging` says what a client has to do that wants to be served: if the server asks for it
again and again `poll` reports it, and if the server makes the call again and again it does not always
return `EAGAIN`.

* `Asks`, `Reports` and `Calls` are the three stages, for reading and for writing alike.
* `calls_again` is the chain: a client that `poll` reports again and again is called for again and again.
-/

namespace WireCommand.Uds

open Foundation

variable {host : Host} {w w' : World} {i : Slot} {c : Nat} {s s' : State} {e : Event}

/-! ## The stages -/

/-- What a client may be ready for. -/
inductive Direction where
  | input
  | output
  deriving DecidableEq

/-- The bit of `events`. -/
def Direction.asked : Direction → Events → Bool
  | .input => Events.pollIn
  | .output => Events.pollOut

/-- The bit of `revents`. -/
def Direction.found : Direction → Revents → Bool
  | .input => Revents.pollIn
  | .output => Revents.pollOut

/-- Where the server is when it makes the call. -/
def Direction.phase : Direction → Phase
  | .input => .read
  | .output => .write

/-- The server is in `poll`, and asks for the client of the connection. -/
def Asks (d : Direction) (c : Nat) (s : State) : Prop :=
  ∃ listener entries interrupted, s.pc = .polling listener entries interrupted ∧
    ∃ entry ∈ entries, entry.conn = c ∧ d.asked entry.events = true

/-- `poll` returns, and has found the client of the connection ready. -/
def Reports (d : Direction) (c : Nat) (s : State) (e : Event) : Prop :=
  ∃ events entries interrupted listener clients, s.pc = .polling events entries interrupted ∧
    e = .poll (.ready listener clients) ∧
    ∃ entry ∈ fillRevents entries clients, entry.conn = c ∧ d.found entry.revents = true

/-- The server is at the call of `read` or `send` for the client of the connection. -/
def Calls (d : Direction) (c : Nat) (s : State) : Prop :=
  ∃ entry listener todo, s.pc = .visiting d.phase entry listener todo ∧ entry.conn = c

/-- `read` or `send` return `EAGAIN`. -/
def Event.blocks : Event → Bool
  | .read .wouldBlock _ _ => true
  | .send .wouldBlock _ => true
  | _ => false

/-- What the environment does for a connection while `P` holds. -/
structure Obliging (x : (server host).Execution) (d : Direction) (c : Nat) (P : State → Prop) :
    Prop where
  polled : ∀ n, (∀ m, n ≤ m → P (x.state m)) → (∀ m, n ≤ m → ∃ k, m ≤ k ∧ Asks d c (x.state k)) →
    ∃ m, n ≤ m ∧ Reports d c (x.state m) (x.event m)
  called : ∀ n, (∀ m, n ≤ m → P (x.state m)) → (∀ m, n ≤ m → ∃ k, m ≤ k ∧ Calls d c (x.state k)) →
    ∃ m, n ≤ m ∧ Calls d c (x.state m) ∧ (x.event m).blocks = false

/-! ## The seat of a client -/

/-- The client of the connection is in the slot. -/
def Seated (i : Slot) (c : Nat) (w : World) : Prop := w.Live i ∧ (w.clients i).conn = c

theorem Seated.connected (h : Seated i c w) : w.Connected c := ⟨i, h⟩

/-- The client that is called for is there. -/
theorem Calls.connected {d : Direction} (h : Calls d c s) (hs : s.Valid host) :
    s.world.Connected c := by
  obtain ⟨entry, listener, todo, hpc, hconn⟩ := h
  have hpcok := hs.pc
  rw [hpc] at hpcok
  exact ⟨entry.slot, hpcok.1.1, hpcok.1.2.2.trans hconn⟩

/-- It keeps its slot. -/
theorem Move.seated (hmove : Move host s e s') (hs : s.Valid host) (h : Seated i c s.world)
    (hc : s'.world.Connected c) : Seated i c s'.world := by
  obtain ⟨j, hj, hconn⟩ := hc
  have hsame : s.world.Live j → (s'.world.clients j).conn = (s.world.clients j).conn →
      Seated i c s'.world := by
    intro hold heq
    obtain rfl : j = i := hs.world.conn_inj j i hold h.1 (heq.symm.trans (hconn.trans h.2.symm))
    exact ⟨hj, hconn⟩
  rcases hmove.effect hs with heffect | ⟨fd, nonblockingOk, released, -, harrival⟩
  · obtain ⟨hold, -, heq⟩ := heffect.keeps j hj
    exact hsame hold heq
  · rcases harrival.live hj with ⟨hold, heq⟩ | hnew
    · exact hsame hold heq
    · -- the connection is older than the one that arrives
      have hlt := (hs.world.client i h.1).conn_lt
      rw [h.2] at hlt
      rw [hconn] at hnew
      omega

/-! ## From one stage to the next -/

/-- In `poll` the server asks for every client: always for its input, and for its output if there is
any. -/
theorem asks_of_asleep {d : Direction} (hs : (server host).Reachable s) (hpc : s.pc.awake = false)
    (h : Seated i c s.world) (hd : d = .output → (s.world.clients i).output.data ≠ []) :
    Asks d c s := by
  cases hpolling : s.pc with
  | polling listener entries interrupted =>
      obtain ⟨-, -, rfl⟩ := pollOk_of_polling hs hpolling
      refine ⟨_, _, _, hpolling, _, mem_buildPollList h.1, h.2, ?_⟩
      cases d with
      | input => rfl
      | output => exact pollEntry_pollOut.mpr (hd rfl)
  | _ => rw [hpolling] at hpc; cases hpc

/-- What `poll` has found for the client in the slot has still to be looked at. -/
def Due (d : Direction) (i : Slot) : Pc → Prop
  | .serving _ todo => ∃ entry ∈ todo, entry.slot = i ∧ d.found entry.revents = true
  | .visiting phase entry _ todo =>
      ((phase = d.phase ∨ phase = .read) ∧ entry.slot = i ∧ d.found entry.revents = true) ∨
        ∃ other ∈ todo, other.slot = i ∧ d.found other.revents = true
  | _ => False

/-- The server is closing its clients, or has closed them. -/
def Pc.ending : Pc → Bool
  | .closing _ _ => true
  | .closed _ => true
  | .finished _ => true
  | _ => false

/-- What `poll` has reported is due, unless the listener is broken. -/
theorem Reports.due {d : Direction} (h : Reports d c s e) (hs : (server host).Reachable s)
    (hmove : Move host s e s') (hi : Seated i c s.world) : Due d i s'.pc ∨ s'.pc.ending = true := by
  obtain ⟨events, entries, interrupted, listener, clients, hpc, rfl, entry, hentry, hconn, hfound⟩ := h
  obtain ⟨-, -, hentries⟩ := pollOk_of_polling hs hpc
  cases hmove with
  | listenerBroken _ _ => exact .inr rfl
  | ready _ _ =>
      cases hpc
      refine .inl ⟨entry, hentry, ?_, hfound⟩
      -- the entry is that of the client
      obtain ⟨⟨old, revents⟩, hmem, rfl⟩ := List.mem_map.mp hentry
      obtain ⟨hlive, heq⟩ := live_of_mem_buildPollList (hentries ▸ (List.of_mem_zip hmem).1)
      refine (valid_of_reachable hs).world.conn_inj old.slot i hlive hi.1 ?_
      rw [hi.2, ← hconn, heq]
      rfl

/-- The server is at the call for the client in the slot. -/
def AtCall (d : Direction) (i : Slot) (pc : Pc) : Prop :=
  ∃ entry listener todo, pc = .visiting d.phase entry listener todo ∧ entry.slot = i

/-- Behind a visit the rest is still due. -/
theorem due_todo {d : Direction} {entry : PollEntry} {listener : Revents} {todo : List PollEntry}
    {next : Pc} {released : Bool} (result : Iteration × World)
    (h : ∃ other ∈ todo, other.slot = i ∧ d.found other.revents = true)
    (hpc : Due d i s.pc) (hnext : Due d i next) :
    Due d i (continueVisit s entry listener todo next released result).pc := by
  obtain ⟨iteration, w'⟩ := result
  cases iteration with
  | again => exact hpc
  | done => exact hnext
  | failed => exact h

/-- **What is due stays due** until the server makes the call. -/
theorem Move.due {d : Direction} (hmove : Move host s e s') (hs : s.Valid host)
    (hi : Seated i c s.world) (hc : s'.world.Connected c) (hidle : e.idle = false)
    (hdue : Due d i s.pc) (hcall : ¬ AtCall d i s.pc) : Due d i s'.pc := by
  have hpc := hs.pc
  cases hmove with
  | signal _ => cases hidle
  | @skip listener entry todo stop w hfree =>
      obtain ⟨other, hother, rfl, hfound⟩ := hdue
      rcases List.mem_cons.mp hother with rfl | htodo
      · exact absurd hi.1 hfree
      · exact ⟨other, htodo, rfl, hfound⟩
  | @visit listener entry todo stop w _ =>
      obtain ⟨other, hother, hslot, hfound⟩ := hdue
      simp only [Uds.visit, afterRead]
      rcases List.mem_cons.mp hother with rfl | htodo
      · cases d with
        | input =>
            rw [if_pos (show other.revents.pollIn = true from hfound)]
            exact .inl ⟨.inl rfl, hslot, hfound⟩
        | output =>
            rw [if_pos (show other.revents.pollOut = true from hfound)]
            split
            · exact .inl ⟨.inr rfl, hslot, hfound⟩
            · exact .inl ⟨.inl rfl, hslot, hfound⟩
      · split <;> exact .inr ⟨other, htodo, hslot, hfound⟩
  | @read entry listener todo stop w outcome env released result hread =>
      rcases hdue with ⟨-, hslot, hfound⟩ | hdue
      · -- the server reads from the client, and is going to write to it
        obtain ⟨iteration, w'⟩ := result
        cases d with
        | input => exact absurd ⟨_, _, _, rfl, hslot⟩ hcall
        | output =>
            cases iteration with
            | again => exact .inl ⟨.inr rfl, hslot, hfound⟩
            | done =>
                show Due .output i (afterRead entry listener todo)
                rw [afterRead, if_pos (show entry.revents.pollOut = true from hfound)]
                exact .inl ⟨.inl rfl, hslot, hfound⟩
            | failed =>
                subst hslot
                refine absurd ?_ (not_connected_removed hs.world hi.1
                  (readClient_spec hs.world hi.1 hread).1 released)
                rw [hi.2]
                exact hc
      · exact due_todo result hdue (.inr hdue) (by simp only [afterRead]; exact .inr hdue)
  | @send entry listener todo stop w outcome released result hsend =>
      rcases hdue with ⟨hphase, hslot, hfound⟩ | hdue
      · cases d with
        | input => rcases hphase with h | h <;> cases h
        | output => exact absurd ⟨_, _, _, rfl, hslot⟩ hcall
      · exact due_todo result hdue (.inr hdue) (.inr hdue)
  | @check entry listener todo stop w released =>
      rcases hdue with ⟨hphase, -, -⟩ | hdue
      · cases d <;> rcases hphase with h | h <;> cases h
      · exact hdue
  | served =>
      obtain ⟨other, hother, -⟩ := hdue
      cases hother
  | _ => exact hdue.elim

/-- A server that closes its clients does not go back. -/
theorem Move.ending (hmove : Move host s e s') (h : s.pc.ending = true) : s'.pc.ending = true := by
  cases hmove with
  | @signal pc => cases pc <;> exact h
  | close _ | closed _ | shutdown => rfl
  | _ => cases h

/-! ## The chain -/

section Execution

variable (x : (server host).Execution)

/-- **The server comes back to `poll` again and again**, if calls are not interrupted for ever. -/
theorem comes_to_poll (hs : ∀ m, (x.state m).Valid host) {N : Nat}
    (hidle : ∀ m, N ≤ m → (x.event m).idle = false) {n : Nat} (hn : N ≤ n) :
    ∃ m, n ≤ m ∧ (x.state m).pc.awake = false := by
  induction hsteps : (x.state n).remaining using Nat.strong_induction_on generalizing n with
  | _ k ih =>
      by_cases hawake : (x.state n).pc.awake = true
      · have hlt := (step_move (x.step n)).remaining (hs n) hawake
        rw [hidle n hn, if_neg Bool.false_ne_true] at hlt
        obtain ⟨m, hm, hasleep⟩ := ih (x.state (n + 1)).remaining (by omega) (by omega) rfl
        exact ⟨m, by omega, hasleep⟩
      · exact ⟨n, le_refl n, Bool.eq_false_of_not_eq_true hawake⟩

/-- It makes the call that is due. -/
theorem call_of_due {d : Direction} (hs : ∀ m, (x.state m).Valid host) {N : Nat}
    (hidle : ∀ m, N ≤ m → (x.event m).idle = false)
    (hseated : ∀ m, N ≤ m → Seated i c (x.state m).world) {n : Nat} (hn : N ≤ n)
    (hdue : Due d i (x.state n).pc) : ∃ m, n ≤ m ∧ AtCall d i (x.state m).pc := by
  -- what is due is done in this round, and every step brings its end closer
  induction hsteps : (x.state n).remaining using Nat.strong_induction_on generalizing n with
  | _ k ih =>
      by_cases hcall : AtCall d i (x.state n).pc
      · exact ⟨n, le_refl n, hcall⟩
      · have hawake : (x.state n).pc.awake = true := by
          cases hpc : (x.state n).pc with
          | polling => rw [hpc] at hdue; exact hdue.elim
          | _ => rfl
        have hmove := step_move (x.step n)
        have hlt := hmove.remaining (hs n) hawake
        rw [hidle n hn, if_neg Bool.false_ne_true] at hlt
        have hnext := hmove.due (hs n) (hseated n hn) (hseated (n + 1) (by omega)).connected
          (hidle n hn) hdue hcall
        obtain ⟨m, hm, hcall'⟩ := ih (x.state (n + 1)).remaining (by omega) (by omega) hnext rfl
        exact ⟨m, by omega, hcall'⟩

/-- **A client that wants to be served is called for again and again.** -/
theorem Obliging.calls_again {d : Direction} {P : State → Prop} (hobliging : Obliging x d c P)
    (hinit : (server host).init (x.state 0)) {N : Nat}
    (hidle : ∀ m, N ≤ m → (x.event m).idle = false)
    (hseated : ∀ m, N ≤ m → Seated i c (x.state m).world) (hP : ∀ m, N ≤ m → P (x.state m))
    (houtput : d = .output → ∀ m, N ≤ m → ((x.state m).world.clients i).output.data ≠ []) :
    ∀ n, N ≤ n → ∃ m, n ≤ m ∧ Calls d c (x.state m) := by
  have hr : ∀ m, (server host).Reachable (x.state m) := x.reachable hinit
  have hs : ∀ m, (x.state m).Valid host := fun m => valid_of_reachable (hr m)
  intro n hn
  have hasks : ∀ m, n ≤ m → ∃ k, m ≤ k ∧ Asks d c (x.state k) := by
    intro m hm
    obtain ⟨k, hk, hasleep⟩ := comes_to_poll x hs hidle (n := m) (by omega)
    exact ⟨k, hk, asks_of_asleep (hr k) hasleep (hseated k (by omega))
      fun hd => houtput hd k (by omega)⟩
  obtain ⟨m, hm, hreports⟩ := hobliging.polled n (fun m hm => hP m (by omega)) hasks
  rcases hreports.due (hr m) (step_move (x.step m)) (hseated m (by omega)) with hdue | hending
  · obtain ⟨k, hk, entry, listener, todo, hpc, hslot⟩ :=
      call_of_due x hs hidle hseated (n := m + 1) (by omega) hdue
    refine ⟨k, by omega, entry, listener, todo, hpc, ?_⟩
    have hpcok := (hs k).pc
    rw [hpc] at hpcok
    rw [← hpcok.1.2.2, hslot, (hseated k (by omega)).2]
  · -- a server that ends does not come to `poll` any more
    obtain ⟨k, hk, hasleep⟩ := comes_to_poll x hs hidle (n := m + 1) (by omega)
    have hends := x.stays (P := fun s => s.pc.ending = true)
      (fun j _ h => (step_move (x.step j)).ending h) hending hk
    cases hpc : (x.state k).pc with
    | polling => rw [hpc] at hends; cases hends
    | _ => rw [hpc] at hasleep; cases hasleep

/-- A client that stays connected keeps its slot. -/
theorem seated_of_connected (hs : ∀ m, (x.state m).Valid host) {n : Nat}
    (hc : ∀ m, n ≤ m → (x.state m).world.Connected c) :
    ∃ i, ∀ m, n ≤ m → Seated i c (x.state m).world := by
  obtain ⟨i, hi⟩ := hc n (le_refl n)
  exact ⟨i, fun m => x.stays (P := fun s => Seated i c s.world)
    (fun k hk h => (step_move (x.step k)).seated (hs k) h (hc (k + 1) (by omega))) hi⟩

end Execution

end WireCommand.Uds
