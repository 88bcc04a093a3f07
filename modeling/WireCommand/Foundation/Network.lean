import WireCommand.Foundation.Service

/-!
# A service and its peers

A server that implements the request service, and a peer at the other end of every connection. The
two ends are joined by a reliable stream of bytes in each direction: what one side has read is a front
of what the other has written. Nothing else is assumed, neither how the streams are cut nor who moves
when.

* `Network` is a server, the peers, and what has happened on each wire so far; `network` takes steps
  of the server and of the peers, as far as the wires allow.
* `network_linked` carries the simulation of the server over to the network: in every reachable state
  each wire is a connection of the service, with the peer's bytes on it.
* `network_peers` is the rule for the peers: to keep an invariant of its own, a peer may rely on having
  read from such a connection.
-/

namespace Foundation.Service

open Foundation.Framing

variable {σ ε π φ α β κ : Type} [DecidableEq κ] {C : Codec α β} {respond : α → List β}

/-! ## What the acts of a server do to the wires -/

/-- The connections after some acts. -/
def afterAll (t : κ → Connection α β) : List (κ × Act α β) → κ → Connection α β
  | [] => t
  | a :: as => afterAll (Function.update t a.1 ((t a.1).after a.2)) as

theorem afterAll_append (t : κ → Connection α β) (as bs : List (κ × Act α β)) :
    afterAll t (as ++ bs) = afterAll (afterAll t as) bs := by
  induction as generalizing t with
  | nil => rfl
  | cons a as ih => exact ih _

theorem run_afterAll {t t' : κ → Connection α β} {as : List (κ × Act α β)}
    (h : (service κ C respond).Run t as t') : t' = afterAll t as := by
  induction h with
  | nil => rfl
  | snoc _ hstep ih =>
      obtain ⟨x, ⟨-, rfl⟩, rfl⟩ := hstep
      rw [afterAll_append, ← ih]
      rfl

/-- Nothing that was sent is taken back. -/
theorem sent_prefix_after (x : Connection α β) (a : Act α β) : x.sent <+: (x.after a).sent := by
  cases a with
  | sends bytes => exact List.prefix_append _ _
  | _ => exact List.prefix_rfl

theorem sent_prefix_afterAll (t : κ → Connection α β) (as : List (κ × Act α β)) (c : κ) :
    (t c).sent <+: (afterAll t as c).sent := by
  induction as generalizing t with
  | nil => exact List.prefix_rfl
  | cons a as ih =>
      refine List.IsPrefix.trans ?_ (ih _)
      by_cases hc : c = a.1
      · subst hc
        rw [Function.update_self]
        exact sent_prefix_after _ _
      · simp only [Function.update_of_ne hc, List.prefix_rfl]

/-- Only the connections that are named change. -/
theorem afterAll_of_notMem {t : κ → Connection α β} {as : List (κ × Act α β)} {c : κ}
    (h : ∀ a ∈ as, a.1 ≠ c) : afterAll t as c = t c := by
  induction as generalizing t with
  | nil => rfl
  | cons a as ih =>
      have hne : c ≠ a.1 := (h a List.mem_cons_self).symm
      show afterAll (Function.update t a.1 ((t a.1).after a.2)) as c = t c
      rw [ih fun b hb => h b (List.mem_cons_of_mem _ hb), Function.update_of_ne hne]

/-! ## The network -/

/-- What can be at the other end of a connection: a program that writes and reads bytes. -/
structure Peer (π φ β : Type) where
  step : π → φ → Option π
  written : π → List β
  read : π → List β
  written_grows : ∀ {p e p'}, step p e = some p' → written p <+: written p'

/-- A server, what has happened on each wire, and the peers. -/
structure Network (σ π α β κ : Type) where
  server : σ
  wire : κ → Connection α β
  peers : κ → π

/-- A step of the server, or of a peer. -/
inductive NetworkEvent (ε φ κ : Type) where
  | server (e : ε)
  | peer (c : κ) (e : φ)

section

variable [DecidableEq β] (next : σ → ε → Option σ)
  (label : σ → ε → σ → List (κ × Act α β)) (peer : Peer π φ β)

/-- One step: what the server has read must have been written by the peers, and what a peer has read
must have been sent by the server. -/
def networkStep (s : Network σ π α β κ) : NetworkEvent ε φ κ → Option (Network σ π α β κ)
  | .server e =>
      (next s.server e).bind fun server =>
        let as := label s.server e server
        let wire := afterAll s.wire as
        if ∀ a ∈ as, (wire a.1).received <+: peer.written (s.peers a.1) then
          some { s with server := server, wire := wire }
        else
          none
  | .peer c e =>
      (peer.step (s.peers c) e).bind fun p =>
        if peer.read p <+: (s.wire c).sent then
          some { s with peers := Function.update s.peers c p }
        else
          none

/-- A server and its peers, which start from `peers`. -/
def network (init : σ → Prop) (peers : κ → π) :
    StepSystem (Network σ π α β κ) (NetworkEvent ε φ κ) :=
  .ofFn (fun s => init s.server ∧ s.wire = (fun _ => .fresh) ∧ s.peers = peers)
    (networkStep next label peer)

end

/-! ## Every run -/

/-- Each wire is a connection of the service, with the peer's bytes on it. -/
structure Network.Linked (C : Codec α β) (respond : α → List β)
    (R : σ → (κ → Connection α β) → Prop) (peer : Peer π φ β) (s : Network σ π α β κ) : Prop where
  related : R s.server s.wire
  reachable : (service κ C respond).Reachable s.wire
  upstream : ∀ c, (s.wire c).received <+: peer.written (s.peers c)
  downstream : ∀ c, peer.read (s.peers c) <+: (s.wire c).sent

/-- What is known of every connection of the service. -/
theorem ok_of_reachable {t : κ → Connection α β} (h : (service κ C respond).Reachable t) (c : κ) :
    (t c).Ok C respond := by
  obtain ⟨t₀, as, hinit, hrun⟩ := h
  have hinductive := connection_inductive C respond
  exact hinductive.run (hinductive.init _ (hinit c)) (hrun.member c)

variable [DecidableEq β] {init : σ → Prop} {next : σ → ε → Option σ}
  {label : σ → ε → σ → List (κ × Act α β)} {R : σ → (κ → Connection α β) → Prop}
  {peer : Peer π φ β} {peers : κ → π}

/-- **A server that implements the service implements it in the network.** -/
theorem network_linked
    (hsim : (StepSystem.ofFn init next).Simulation (service κ C respond) label R)
    (hpeers : ∀ c, peer.read (peers c) = []) :
    (network next label peer init peers).Inductive (Network.Linked C respond R peer) where
  init := by
    rintro ⟨server, wire, peers'⟩ ⟨hserver, rfl, rfl⟩
    obtain ⟨t, ht, hR⟩ := hsim.init server hserver
    have hfresh : t = fun _ => .fresh := funext ht
    subst hfresh
    exact ⟨hR, .of_init ht, fun c => List.nil_prefix, fun c => by rw [hpeers c]; exact List.nil_prefix⟩
  step := by
    intro s e s' hs hstep
    rw [network, StepSystem.ofFn_step] at hstep
    cases e with
    | server e =>
        simp only [networkStep] at hstep
        obtain ⟨server, hnext, hstep⟩ := Option.bind_eq_some_iff.mp hstep
        split at hstep
        · next hcarried =>
            cases hstep
            obtain ⟨t', hrun, hR⟩ := hsim.step _ _ _ _ hs.related hnext
            obtain rfl := run_afterAll hrun
            refine ⟨hR, hs.reachable.run hrun, fun c => ?_, fun c => ?_⟩
            · by_cases hc : ∃ a ∈ label s.server e server, a.1 = c
              · obtain ⟨a, ha, rfl⟩ := hc
                exact hcarried a ha
              · have hother := afterAll_of_notMem (t := s.wire)
                  fun a ha heq => hc ⟨a, ha, heq⟩
                show (afterAll s.wire _ c).received <+: _
                rw [hother]
                exact hs.upstream c
            · exact (hs.downstream c).trans (sent_prefix_afterAll _ _ c)
        · cases hstep
    | peer c e =>
        simp only [networkStep] at hstep
        obtain ⟨p, hpeer, hstep⟩ := Option.bind_eq_some_iff.mp hstep
        split at hstep
        · next hcarried =>
            cases hstep
            refine ⟨hs.related, hs.reachable, fun d => ?_, fun d => ?_⟩ <;>
            · by_cases hd : d = c
              · subst hd
                simp only [Function.update_self]
                first
                  | exact (hs.upstream d).trans (peer.written_grows hpeer)
                  | exact hcarried
              · simp only [Function.update_of_ne hd]
                first | exact hs.upstream d | exact hs.downstream d
        · cases hstep

/-- **The rule for the peers.** A peer keeps an invariant if each of its steps does that reads from a
connection of the service which has read from the peer. -/
theorem network_peers {I : κ → π → Prop}
    (hsim : (StepSystem.ofFn init next).Simulation (service κ C respond) label R)
    (hpeers : ∀ c, peer.read (peers c) = []) (hinit : ∀ c, I c (peers c))
    (hstep : ∀ c p e p' (x : Connection α β), I c p → peer.step p e = some p' → x.Ok C respond →
      x.received <+: peer.written p → peer.read p <+: x.sent → I c p') :
    (network next label peer init peers).Inductive fun s =>
      s.Linked C respond R peer ∧ ∀ c, I c (s.peers c) where
  init s hs := by
    refine ⟨(network_linked hsim hpeers).init s hs, fun c => ?_⟩
    rw [hs.2.2]
    exact hinit c
  step s e s' hs hnext := by
    obtain ⟨hlinked, hI⟩ := hs
    have hlinked' := (network_linked hsim hpeers).step s e s' hlinked hnext
    refine ⟨hlinked', ?_⟩
    rw [network, StepSystem.ofFn_step] at hnext
    cases e with
    | server e =>
        simp only [networkStep] at hnext
        obtain ⟨server, -, hnext⟩ := Option.bind_eq_some_iff.mp hnext
        split at hnext
        · cases hnext
          exact hI
        · cases hnext
    | peer c e =>
        simp only [networkStep] at hnext
        obtain ⟨p, hpeer, hnext⟩ := Option.bind_eq_some_iff.mp hnext
        split at hnext
        · cases hnext
          intro d
          by_cases hd : d = c
          · subst hd
            simp only [Function.update_self]
            exact hstep d _ e p (s.wire d) (hI d) hpeer (ok_of_reachable hlinked.reachable d)
              (hlinked.upstream d) (hlinked.downstream d)
          · simp only [Function.update_of_ne hd]
            exact hI d
        · cases hnext

end Foundation.Service
