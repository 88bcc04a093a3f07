import WireCommand.Foundation.History
import WireCommand.Foundation.Measure
import WireCommand.Threaded.Lifecycle

/-!
# Refused connections

A threaded server that finds no free slot for a connection closes it. A slot becomes free when its
worker is joined, and finished workers are joined by `wc_tcp_reap_finished`, which looks at one slot
after the other while the workers go on finishing. Whether a connection is refused depends on when
the server looked last:

* the TCP server looks between `accept` and the search for a slot, so what was open to the
  connection when it was accepted is free when the search begins (`tcp_refuses_only_when_full`);
* the UDS server looks only before `poll`. A worker that marks itself finished when its slot has been
  looked at is *late*: it keeps its slot until the next scan, and a connection that finds all slots in
  use is refused for it. `uds_refusal_justified` says that late workers are the only reason.

The invariant of the scan is `Freed`: of the slots in question, those behind the scan are free, and
those in front of it are free or will be found finished. What is late is a matter of history
(`Foundation.History`), and the invariant of the record is `Timely`: a worker that has finished is late,
or the scan is still on its way to it.
-/

namespace WireCommand.Threaded.Server

open Foundation

variable {transport : Transport} {host : Host} {s s' : State} {e : Event}

/-! ## A refusal -/

/-- Every slot is held by a worker that has not marked itself finished. -/
def State.Full (s : State) : Prop :=
  ∀ i, (s.workers i).inUse = true ∧ (s.workers i).finished = false

/-- The connection that `accept` returns in `s` is refused in `s₂` for want of a slot: that is what
`wc_tcp_start_worker` fails for when its calls succeed. -/
structure Refusal (transport : Transport) (host : Host) (fd : Int) (s s₁ s₂ : State) : Prop where
  reachable : (transport.server host).Reachable s
  accepted : (transport.server host).step s (.main (.accept (.accepted fd))) s₁
  run : ∃ es, (transport.server host).Run s₁ es s₂
  configuring : ∃ listener, s₂.pc = .configuring fd s.nextConn listener
  refused : (transport.startWorker s₂.workers fd s₂.nextThread .fair).1 = .error .emfile

/-- The server with one more connection. -/
def State.connected (s : State) (fd : Int) (pc : Pc) : State :=
  { s with
    pc := pc
    descriptors := s.descriptors.acquire fd s.nextConn
    nextConn := s.nextConn + 1 }

/-- What `accept` does when it returns a connection. -/
theorem accept_eq {fd : Int} (h : step transport host s (.main (.accept (.accepted fd))) = some s') :
    ∃ listener, s.pc = .accepting listener ∧
      s' = s.connected fd (transport.afterAccept fd s.nextConn listener) := by
  cases step_move h with
  | main hmain =>
      cases hmain with
      | accepts hpc _ _ => exact ⟨_, hpc, rfl⟩
      | acceptedAll _ houtcome => rcases houtcome with h | h <;> cases h

theorem step_accept {listener : Revents} {fd : Int} (transport : Transport) (host : Host)
    (hpc : s.pc = .accepting listener) (hfd : 0 ≤ fd) (hunused : s.descriptors.table fd = none) :
    step transport host s (.main (.accept (.accepted fd))) =
      some (s.connected fd (transport.afterAccept fd s.nextConn listener)) := by
  simp only [step, mainStep, hpc, State.accept, hfd, hunused, and_self, if_true, State.connected]

/-- `wc_tcp_start_worker` fails with `EMFILE` when every slot is in use. -/
theorem startWorker_emfile_iff (transport : Transport) (workers : Workers) (fd : Int)
    (t : ThreadId) :
    (transport.startWorker workers fd t .fair).1 = .error .emfile ↔
      ∀ i, (workers i).inUse = true := by
  rw [transport.startWorker_eq]
  unfold startWorker
  cases hfind : (List.finRange maxClients).find? fun i => !(workers i).inUse with
  | none =>
      refine ⟨fun _ i => ?_, fun _ => rfl⟩
      have hbusy := List.find?_eq_none.mp hfind i (List.mem_finRange i)
      simpa using hbusy
  | some i =>
      have hfree : (workers i).inUse = false := by simpa using List.find?_some hfind
      constructor
      · intro herror
        cases herror
      · intro hbusy
        rw [hbusy i] at hfree
        cases hfree

/-! ## The scan -/

/-- Which connection the main thread is looking for a slot for, and how many slots it has looked at
on its way. -/
def Pc.progress : Pc → Option (Nat × Nat)
  | .reaping next (.configure _ conn _) => some (conn, next)
  | .joining slot _ (.configure _ conn _) => some (conn, slot)
  | .configuring _ conn _ => some (conn, maxClients)
  | _ => none

/-- The slot is free, or the scan will come to it and find its worker finished. -/
def Freed (workers : Workers) (next : Nat) (i : Slot) : Prop :=
  (workers i).inUse = false ∨ (next ≤ i.val ∧ (workers i).finished = true)

/-- Behind the scan there are only free ones. -/
theorem Freed.free {workers : Workers} {next : Nat} {i : Slot} (h : Freed workers next i)
    (hnext : maxClients ≤ next) : (workers i).inUse = false := by
  rcases h with hfree | ⟨hle, -⟩
  · exact hfree
  · have hlt := i.isLt
    omega

/-- The scan passes a slot whose worker it does not join. -/
theorem Freed.pass {workers : Workers} {next : Nat} {i : Slot} (h : Freed workers next i)
    (hnext : next < maxClients)
    (hskip : ((workers ⟨next, hnext⟩).inUse && (workers ⟨next, hnext⟩).finished) = false) :
    Freed workers (next + 1) i := by
  rcases h with hfree | ⟨hle, hfinished⟩
  · exact .inl hfree
  · by_cases hi : i.val = next
    · subst hi
      rw [show (⟨i.val, hnext⟩ : Slot) = i from rfl, hfinished, Bool.and_true] at hskip
      exact .inl hskip
    · exact .inr ⟨by omega, hfinished⟩

/-- The scan passes a slot whose worker it has joined. -/
theorem Freed.joined {workers : Workers} {j i : Slot} (h : Freed workers j i) :
    Freed (Function.update workers j (workers j).released) (j + 1) i := by
  by_cases hi : i = j
  · subst hi
    left
    rw [Function.update_self]
    rfl
  · unfold Freed
    rw [Function.update_of_ne hi]
    rcases h with hfree | ⟨hle, hfinished⟩
    · exact .inl hfree
    · have hne : i.val ≠ j.val := fun heq => hi (Fin.ext heq)
      exact .inr ⟨by omega, hfinished⟩

/-- A worker marks itself finished. -/
theorem Freed.marked {workers : Workers} {next : Nat} {i : Slot} (h : Freed workers next i)
    (j : Slot) : Freed (Function.update workers j { workers j with finished := true }) next i := by
  unfold Freed
  by_cases hi : i = j
  · subst hi
    rw [Function.update_self]
    rcases h with hfree | ⟨hle, -⟩
    · exact .inl hfree
    · exact .inr ⟨hle, rfl⟩
  · rw [Function.update_of_ne hi]
    exact h

theorem progress_afterReap {after : AfterReap} {conn k : Nat}
    (h : after.pc.progress = some (conn, k)) (next : Nat) :
    k = maxClients ∧ (Pc.reaping next after).progress = some (conn, next) := by
  cases after with
  | poll => cases h
  | configure fd c listener =>
      cases h
      exact ⟨rfl, rfl⟩

/-- The main thread takes the scan further, unless it accepts a connection. -/
theorem MainMove.progress {e : MainEvent} {conn k' : Nat} (h : MainMove transport s e s')
    (hprogress : s'.pc.progress = some (conn, k')) :
    conn = s.nextConn ∨
      ∃ k, s.pc.progress = some (conn, k) ∧ ∀ i, Freed s.workers k i → Freed s'.workers k' i := by
  cases h with
  | @finds next after hpc hnext hbusy hfinished =>
      -- the worker is going to be joined
      cases after with
      | poll => cases hprogress
      | configure fd c listener =>
          cases hprogress
          exact .inr ⟨next, by rw [hpc]; rfl, fun i hi => hi⟩
  | @passes next after hpc hnext hskip =>
      cases after with
      | poll => cases hprogress
      | configure fd c listener =>
          cases hprogress
          exact .inr ⟨next, by rw [hpc]; rfl, fun i hi => hi.pass hnext hskip⟩
  | @reaped next after hpc hnext =>
      obtain ⟨rfl, hreaping⟩ := progress_afterReap hprogress next
      rw [hpc]
      exact .inr ⟨next, hreaping, fun i hi => .inl (hi.free (Nat.not_lt.mp hnext))⟩
  | @joins j t after hpc hexited =>
      cases after with
      | poll => cases hprogress
      | configure fd c listener =>
          cases hprogress
          exact .inr ⟨j, by rw [hpc]; rfl, fun i hi => hi.joined⟩
  | accepts hpc _ _ =>
      left
      cases transport <;> (cases hprogress; rfl)
  | acceptInterrupted hpc =>
      rw [hpc] at hprogress
      cases hprogress
  | polled | checks =>
      simp only at hprogress
      split at hprogress <;> cases hprogress
  | _ => cases hprogress

/-- The workers do not move the main thread, and free no slot; a worker that marks itself finished
is found by the scan, or not looked at any more. -/
theorem WorkerMove.keeps {t : ThreadId} {e : WorkerEvent} (h : WorkerMove transport host s t e s') :
    s'.pc = s.pc ∧ ∀ k i, Freed s.workers k i → Freed s'.workers k i := by
  cases h with
  | marks _ => exact ⟨rfl, fun _ _ hi => hi.marked _⟩
  | _ => exact ⟨rfl, fun _ _ hi => hi⟩

/-- **What a step does to the scan**: it goes on, unless a new connection is accepted. -/
theorem Move.progress {conn k' : Nat} (h : Move transport host s e s')
    (hprogress : s'.pc.progress = some (conn, k')) :
    conn = s.nextConn ∨
      ∃ k, s.pc.progress = some (conn, k) ∧ ∀ i, Freed s.workers k i → Freed s'.workers k' i := by
  cases h with
  | signal => exact .inr ⟨k', hprogress, fun _ hi => hi⟩
  | main hmain => exact hmain.progress hprogress
  | worker _ hworker =>
      obtain ⟨hpc, hkeeps⟩ := hworker.keeps
      rw [hpc] at hprogress
      exact .inr ⟨k', hprogress, hkeeps k'⟩

/-- No step takes the number of a connection back. -/
theorem Effect.nextConn_le (heffect : Effect transport host s s') : s.nextConn ≤ s'.nextConn := by
  cases heffect with
  | accepted => exact Nat.le_succ _
  | _ => exact Nat.le_refl _

/-- As far as the main thread is with connection `conn`, the slots of `P` are free behind the scan
and will be found finished in front of it. -/
structure Scanned (P : Slot → Prop) (conn : Nat) (s : State) : Prop where
  accepted : conn < s.nextConn
  freed : ∀ k, s.pc.progress = some (conn, k) → ∀ i, P i → Freed s.workers k i

/-- **The run lemma of the scan.** -/
theorem Scanned.run {P : Slot → Prop} {conn : Nat} {es : List Event}
    (hs : (transport.server host).Reachable s) (h : Scanned P conn s)
    (hrun : (transport.server host).Run s es s') : Scanned P conn s' := by
  induction hrun with
  | nil => exact h
  | @snoc es t e t' hrun hstep ih =>
      have heffect := step_effect (valid_of_reachable (hs.run hrun)).pc hstep
      refine ⟨Nat.lt_of_lt_of_le ih.accepted heffect.nextConn_le, ?_⟩
      intro k' hprogress i hi
      rcases (step_move hstep).progress hprogress with hnew | ⟨k, hk, hfreed⟩
      · -- another connection
        exact absurd hnew (Nat.ne_of_lt ih.accepted)
      · exact hfreed i (ih.freed k hk i hi)

/-- A connection is refused only when none of the slots is left that were freed for it. -/
theorem Refusal.busy {fd : Int} {s₁ s₂ : State} (h : Refusal transport host fd s s₁ s₂)
    {P : Slot → Prop} (hscanned : Scanned P s.nextConn s₁) (i : Slot) : ¬ P i := by
  intro hi
  obtain ⟨es, hrun⟩ := h.run
  obtain ⟨listener, hpc⟩ := h.configuring
  have hdone := hscanned.run (h.reachable.next h.accepted) hrun
  have hfreed := hdone.freed maxClients (by rw [hpc]; rfl) i hi
  have hbusy := (startWorker_emfile_iff ..).mp h.refused i
  rw [hfreed.free (Nat.le_refl _)] at hbusy
  cases hbusy

/-! ## Late workers -/

/-- Which workers have marked themselves finished since the scan last looked at their slots. -/
abbrev Late := ThreadId → Bool

/-- What a step does to the record: `wc_tcp_mark_finished` makes a worker late, and a look at its slot
ends that. -/
def noteLate (s : State) (e : Event) (late : Late) : Late :=
  match e with
  | .worker t .markFinished => Function.update late t true
  | .main .tick =>
      match s.pc with
      | .reaping next _ => fun t => late t && decide ((s.threads t).slot.val ≠ next)
      | _ => late
  | _ => late

/-- The server with a record of the late workers. -/
def watchedServer (transport : Transport) (host : Host) : StepSystem (State × Late) Event :=
  (transport.server host).watch (fun _ => false) noteLate

/-- The scan is on its way to the slot, or at it, or will begin anew before a connection is
accepted. -/
def Pc.Ahead (i : Slot) : Pc → Prop
  | .reaping next _ => next ≤ i.val
  | .joining slot _ _ => slot ≤ i
  | .polling => False
  | .accepting _ => False
  | .configuring _ _ _ => False
  | .rejecting _ _ _ => False
  | _ => True

/-- **The record is right.** A worker that waits to be joined is late or ahead of the scan, and a late
worker that has not been joined is one that waits. -/
structure Timely (s : State) (late : Late) : Prop where
  created : ∀ t, late t = true → t < s.nextThread
  waits : ∀ i, (s.workers i).inUse = true → (s.workers i).finished = true →
    late (s.workers i).thread = true ∨ s.pc.Ahead i
  finished : ∀ i, (s.workers i).inUse = true → late (s.workers i).thread = true →
    (s.workers i).finished = true

/-- A step that leaves the slots in use as they are, or empties some, and does not take the scan
past one. -/
theorem Timely.keep {late : Late} (h : Timely s late) (hnext : s'.nextThread = s.nextThread)
    (hworkers : ∀ i, s'.workers i = s.workers i ∨ (s'.workers i).inUse = false)
    (hpc : ∀ i, (s'.workers i).inUse = true → s.pc.Ahead i → s'.pc.Ahead i) : Timely s' late where
  created t ht := by
    rw [hnext]
    exact h.created t ht
  waits i hbusy hfinished := by
    rcases hworkers i with hsame | hfree
    · rw [hsame] at hfinished ⊢
      exact (h.waits i (hsame ▸ hbusy) hfinished).imp_right (hpc i hbusy)
    · rw [hbusy] at hfree
      cases hfree
  finished i hbusy hlate := by
    rcases hworkers i with hsame | hfree
    · rw [hsame] at hlate ⊢
      exact h.finished i (hsame ▸ hbusy) hlate
    · rw [hbusy] at hfree
      cases hfree

/-- The scan looks at a slot, and its worker is not late any more. -/
theorem Timely.look {late : Late} {next : Nat} {after : AfterReap} {pc : Pc} (h : Timely s late)
    (hslots : SlotsOk s) (hpc : s.pc = .reaping next after)
    (hahead : ∀ i : Slot, (s.workers i).inUse = true → (s.workers i).finished = true →
      next ≤ i.val → pc.Ahead i) :
    Timely { s with pc := pc } fun t => late t && decide ((s.threads t).slot.val ≠ next) where
  created t ht := h.created t (Bool.and_eq_true_iff.mp ht).1
  waits i hbusy hfinished := by
    by_cases hi : i.val = next
    · exact .inr (hahead i hbusy hfinished hi.ge)
    · rcases h.waits i hbusy hfinished with hlate | hpc'
      · left
        show (late (s.workers i).thread && decide ((s.threads (s.workers i).thread).slot.val ≠ next)) =
          true
        rw [hlate, (hslots.busy i hbusy).2.1]
        simpa using hi
      · rw [hpc] at hpc'
        exact .inr (hahead i hbusy hfinished hpc')
  finished i hbusy hlate := h.finished i hbusy (Bool.and_eq_true_iff.mp hlate).1

/-- A worker marks itself finished. -/
theorem Timely.mark {late : Late} {t : ThreadId} (h : Timely s late) (hslots : SlotsOk s)
    (ht : t < s.nextThread) (hstage : (s.threads t).stage = .closed) :
    Timely { s.setStage t .marked with
      workers := Function.update s.workers (s.threads t).slot
        { s.workers (s.threads t).slot with finished := true } } (Function.update late t true) := by
  obtain ⟨-, -, hthread⟩ := hslots.running ht (by rw [hstage]; exact nofun)
  refine ⟨?_, ?_, ?_⟩
  · intro u hu
    by_cases hut : u = t
    · rw [hut]
      exact ht
    · rw [Function.update_of_ne hut] at hu
      exact h.created u hu
  · intro i hbusy hfinished
    simp only at hbusy hfinished ⊢
    by_cases hi : i = (s.threads t).slot
    · subst hi
      rw [Function.update_self, hthread, Function.update_self]
      exact .inl rfl
    · rw [Function.update_of_ne hi] at hbusy hfinished ⊢
      refine (h.waits i hbusy hfinished).imp_left fun hlate => ?_
      by_cases hsame : (s.workers i).thread = t
      · rw [hsame, Function.update_self]
      · rw [Function.update_of_ne hsame, hlate]
  · intro i hbusy hlate
    simp only at hbusy hlate ⊢
    by_cases hi : i = (s.threads t).slot
    · subst hi
      rw [Function.update_self]
    · rw [Function.update_of_ne hi] at hbusy hlate ⊢
      have hother : (s.workers i).thread ≠ t := by
        intro hsame
        have hslot := (hslots.busy i hbusy).2.1
        rw [hsame] at hslot
        exact hi hslot.symm
      rw [Function.update_of_ne hother] at hlate
      exact h.finished i hbusy hlate

/-- A worker is started, who is not late. -/
theorem Timely.start {late : Late} {i : Slot} {fd : Int} {pc : Pc} {threads : ThreadId → Thread}
    (h : Timely s late) (hpc : ∀ j, s.pc.Ahead j → pc.Ahead j) :
    Timely { s with
      pc := pc
      workers := Function.update s.workers i ⟨s.nextThread, fd, true, false⟩
      threads := threads
      nextThread := s.nextThread + 1 } late := by
  have hnew : late s.nextThread = false := by
    apply Bool.eq_false_of_not_eq_true
    intro hlate
    exact Nat.lt_irrefl _ (h.created _ hlate)
  refine ⟨fun t ht => Nat.lt_succ_of_lt (h.created t ht), ?_, ?_⟩
  · intro j hbusy hfinished
    simp only at hbusy hfinished ⊢
    by_cases hj : j = i
    · rw [hj, Function.update_self] at hfinished
      cases hfinished
    · rw [Function.update_of_ne hj] at hbusy hfinished ⊢
      exact (h.waits j hbusy hfinished).imp_right (hpc j)
  · intro j hbusy hlate
    simp only at hbusy hlate ⊢
    by_cases hj : j = i
    · rw [hj, Function.update_self, hnew] at hlate
      cases hlate
    · rw [Function.update_of_ne hj] at hbusy hlate ⊢
      exact h.finished j hbusy hlate

/-- The main thread moves on. -/
theorem Timely.moves {late : Late} {pc : Pc} (h : Timely s late)
    (hpc : ∀ i, s.pc.Ahead i → pc.Ahead i) : Timely { s with pc := pc } late :=
  h.keep rfl (fun _ => .inl rfl) fun i _ => hpc i

/-- A thread is joined, and its slot is free. -/
theorem Timely.join {late : Late} {i : Slot} {t : ThreadId} {pc : Pc} (h : Timely s late)
    (hpc : ∀ j, j ≠ i → s.pc.Ahead j → pc.Ahead j) : Timely (s.joined i t pc) late := by
  have hslot : ((s.joined i t pc).workers i).inUse = false := by
    simp [State.joined, Worker.released]
  refine h.keep rfl (fun j => ?_) fun j hbusy => hpc j ?_
  · by_cases hj : j = i
    · rw [hj]
      exact .inr hslot
    · exact .inl (Function.update_of_ne hj _ _)
  · rintro rfl
    rw [hslot] at hbusy
    cases hbusy

/-- **The main thread keeps the record right.** -/
theorem MainMove.timely {late : Late} {e : MainEvent} (hmove : MainMove transport s e s')
    (hslots : SlotsOk s) (h : Timely s late) : Timely s' (noteLate s (.main e) late) := by
  cases hmove with
  | listens hpc | cannotListen hpc | pollInterrupted hpc | pollFailed hpc | closesListener hpc =>
      exact h.moves fun _ _ => trivial
  | stops hpc _ | skips hpc _ _ | joinedAll hpc _ | returns hpc =>
      simp only [noteLate, hpc]
      exact h.moves fun _ _ => trivial
  | goesOn hpc _ =>
      simp only [noteLate, hpc]
      exact h.moves fun i _ => Nat.zero_le i.val
  | @finds next after hpc hnext hbusy hfinished =>
      simp only [noteLate, hpc]
      exact h.look hslots hpc fun i _ _ hle => hle
  | @passes next after hpc hnext hskip =>
      simp only [noteLate, hpc]
      refine h.look hslots hpc fun i hbusy hfinished hle => ?_
      -- the slot at which the scan is would have been joined
      have hne : i.val ≠ next := by
        rintro rfl
        rw [hbusy, hfinished] at hskip
        cases hskip
      show next + 1 ≤ i.val
      omega
  | @reaped next after hpc hnext =>
      simp only [noteLate, hpc]
      refine h.look hslots hpc fun i _ _ hle => ?_
      have hlt := i.isLt
      omega
  | @joins i t after hpc _ =>
      simp only [noteLate, hpc]
      refine h.join fun j hj hahead => ?_
      rw [hpc] at hahead
      have hne : j.val ≠ i.val := fun heq => hj (Fin.ext heq)
      have hle : i.val ≤ j.val := hahead
      show i.val + 1 ≤ j.val
      omega
  | polled hpc _ =>
      refine h.moves fun i hahead => ?_
      rw [hpc] at hahead
      exact hahead.elim
  | accepts hpc _ _ =>
      refine h.keep rfl (fun _ => .inl rfl) fun i _ hahead => ?_
      rw [hpc] at hahead
      exact hahead.elim
  | acceptInterrupted _ => exact h
  | acceptedAll hpc _ => exact h.moves fun _ _ => trivial
  | starts hpc _ =>
      refine h.start fun i hahead => ?_
      rw [hpc] at hahead
      exact hahead
  | cannotStart hpc hworkers =>
      refine h.keep rfl (fun i => (hworkers i).imp_right And.right) fun i _ hahead => ?_
      rw [hpc] at hahead
      exact hahead
  | cannotConfigure hpc =>
      refine h.moves fun i hahead => ?_
      rw [hpc] at hahead
      exact hahead
  | rejects hpc =>
      simp only [noteLate, hpc]
      refine h.keep rfl (fun _ => .inl rfl) fun i _ hahead => ?_
      rw [hpc] at hahead
      exact hahead
  | checks hpc =>
      simp only [noteLate, hpc]
      refine h.moves fun _ _ => ?_
      split <;> trivial
  | publishes hpc =>
      simp only [noteLate, hpc]
      exact h.keep rfl (fun _ => .inl rfl) fun _ _ _ => trivial
  | joinsNext hpc _ _ _ =>
      simp only [noteLate, hpc]
      exact h.join fun _ _ _ => trivial

/-- So do the workers. -/
theorem WorkerMove.timely {late : Late} {t : ThreadId} {e : WorkerEvent}
    (hmove : WorkerMove transport host s t e s') (ht : t < s.nextThread) (hslots : SlotsOk s)
    (h : Timely s late) : Timely s' (noteLate s (.worker t e) late) := by
  cases hmove with
  | marks hstage => exact h.mark hslots ht hstage
  | _ => exact h.keep rfl (fun _ => .inl rfl) fun _ _ hahead => hahead

theorem Move.timely {late : Late} (hmove : Move transport host s e s') (hslots : SlotsOk s)
    (h : Timely s late) : Timely s' (noteLate s e late) := by
  cases hmove with
  | signal => exact h.keep rfl (fun _ => .inl rfl) fun _ _ hahead => hahead
  | main hmain => exact hmain.timely hslots h
  | worker ht hworker => exact hworker.timely ht hslots h

/-- **In every run the record is right.** -/
theorem timely_of_reachable {late : Late} (h : (watchedServer transport host).Reachable (s, late)) :
    Timely s late := by
  have hinductive : (watchedServer transport host).Inductive
      fun p => p.1.Valid transport host ∧ Timely p.1 p.2 := by
    refine (StepSystem.projects_watch _ _ _).inductive_of (server_inductive transport host) ?_ ?_
    · rintro ⟨s, late⟩ ⟨⟨stopRequested, rfl⟩, rfl⟩
      exact ⟨nofun, nofun, nofun⟩
    · rintro ⟨s, late⟩ e ⟨s', late'⟩ hvalid htimely ⟨hstep, rfl⟩
      exact (step_move hstep).timely hvalid.slots htimely
  exact (hinductive.reachable h).2

/-! ## A server that fills up -/

/-- No worker marks itself finished. -/
def Unmarked (_ : State) (e : Event) : Prop := ∀ t, e ≠ .worker t .markFinished

/-- A threaded server in which no worker comes to its end. -/
def endlessServer (transport : Transport) (host : Host) : StepSystem State Event :=
  (transport.server host).restrict Unmarked

/-- The slots that are not in use. -/
def freeSlots (workers : Workers) : Finset Slot :=
  Finset.univ.filter fun i => (workers i).inUse = false

/-- The accept loop has taken `n` connections, with the descriptors below `n`, and no worker has
come to its end. -/
structure Crowd (n : Nat) (s : State) : Prop where
  pc : s.pc = .accepting .readable
  running : ∀ i, (s.workers i).finished = false
  free : (freeSlots s.workers).card + n = maxClients
  unused : ∀ fd : Nat, n ≤ fd → s.descriptors.table fd = none

/-- A scan that finds no finished worker only moves the main thread. -/
theorem run_reaped {after : AfterReap} (hrunning : ∀ i, (s.workers i).finished = false) :
    ∀ {next left : Nat}, next + left = maxClients →
      ∃ es, (endlessServer transport host).Run { s with pc := .reaping next after } es
        { s with pc := after.pc } := by
  intro next left
  induction left generalizing next with
  | zero =>
      intro hnext
      refine ⟨[] ++ [.main .tick], .snoc .nil ⟨?_, nofun⟩⟩
      have hlast : ¬ next < maxClients := by omega
      simp only [Transport.server, StepSystem.ofFn_step, step, mainStep, State.tick, hlast,
        dite_false]
  | succ left ih =>
      intro hnext
      have hlt : next < maxClients := by omega
      have hfirst : (endlessServer transport host).Run { s with pc := .reaping next after }
          ([] ++ [.main .tick]) { s with pc := .reaping (next + 1) after } := by
        refine .snoc .nil ⟨?_, nofun⟩
        simp only [Transport.server, StepSystem.ofFn_step, step, mainStep, State.tick, hlt,
          dite_true, hrunning, Bool.and_false, Bool.false_eq_true, if_false]
      obtain ⟨es, hrest⟩ := ih (show next + 1 + left = maxClients by omega)
      exact ⟨_, hfirst.append hrest⟩

/-- A connection is accepted, and either server comes to the search for a slot. -/
theorem Crowd.accept {n : Nat} (h : Crowd n s) (transport : Transport) (host : Host) :
    (endlessServer transport host).step s (.main (.accept (.accepted n)))
        (s.connected n (transport.afterAccept n s.nextConn .readable)) ∧
      ∃ es, (endlessServer transport host).Run
        (s.connected n (transport.afterAccept n s.nextConn .readable)) es
        (s.connected n (.configuring n s.nextConn .readable)) := by
  constructor
  · refine ⟨?_, nofun⟩
    exact step_accept transport host h.pc (Int.natCast_nonneg n) (h.unused n (Nat.le_refl n))
  · cases transport with
    | tcp => exact run_reaped (s := s.connected n s.pc) h.running (Nat.zero_add maxClients)
    | threadedUds => exact ⟨[], .nil⟩

/-- A connection finds a slot when one is free. -/
theorem startWorker_of_free (transport : Transport) {workers : Workers} (fd : Int) (t : ThreadId)
    {j : Slot} (hfree : (workers j).inUse = false) :
    ∃ i, (workers i).inUse = false ∧ transport.startWorker workers fd t .fair =
      (.ok i, Function.update workers i ⟨t, fd, true, false⟩) := by
  rw [transport.startWorker_eq]
  obtain ⟨i, hfind⟩ : ∃ i, ((List.finRange maxClients).find? fun i => !(workers i).inUse) = some i := by
    apply Option.isSome_iff_exists.mp
    rw [List.find?_isSome]
    exact ⟨j, List.mem_finRange j, by simp [hfree]⟩
  exact ⟨i, by simpa using List.find?_some hfind, by simp only [startWorker, hfind]; rfl⟩

/-- The slot of a new worker is one free slot less. -/
theorem card_freeSlots_update {workers : Workers} {i : Slot} {worker : Worker}
    (hfree : (workers i).inUse = false) (hbusy : worker.inUse = true) :
    (freeSlots (Function.update workers i worker)).card + 1 = (freeSlots workers).card :=
  card_filter_update (fun worker : Worker => worker.inUse = false) hfree (by simp [hbusy])

/-- **One more connection**, as long as there is a slot. -/
theorem Crowd.next {n : Nat} (h : Crowd n s) (hs : (endlessServer transport host).Reachable s)
    (hn : n < maxClients) : ∃ s', (endlessServer transport host).Reachable s' ∧ Crowd (n + 1) s' := by
  obtain ⟨j, hj⟩ : ∃ j, (s.workers j).inUse = false := by
    have hpos : 0 < (freeSlots s.workers).card := by
      have hfree := h.free
      omega
    obtain ⟨j, hj⟩ := Finset.card_pos.mp hpos
    exact ⟨j, (Finset.mem_filter.mp hj).2⟩
  obtain ⟨haccept, es, hrun⟩ := h.accept transport host
  obtain ⟨i, hi, hstart⟩ := startWorker_of_free transport n s.nextThread hj
  have hconfigure : (endlessServer transport host).step
      (s.connected n (.configuring n s.nextConn .readable)) (.main (.configure true .fair))
      { s.connected n (.accepting .readable) with
        workers := Function.update s.workers i ⟨s.nextThread, n, true, false⟩
        threads := Function.update s.threads s.nextThread ⟨i, 0, .entering, s.nextConn, 0⟩
        nextThread := s.nextThread + 1 } := by
    refine ⟨?_, nofun⟩
    simp only [Transport.server, StepSystem.ofFn_step, step, mainStep, State.configure, if_true,
      State.connected, hstart]
  refine ⟨_, ((hs.next haccept).run hrun).next hconfigure, rfl, ?_, ?_, ?_⟩
  · intro k
    show (Function.update s.workers i _ k).finished = false
    by_cases hk : k = i
    · rw [hk, Function.update_self]
    · rw [Function.update_of_ne hk]
      exact h.running k
  · have hcard : (freeSlots (Function.update s.workers i ⟨s.nextThread, n, true, false⟩)).card + 1 =
        (freeSlots s.workers).card := card_freeSlots_update hi rfl
    have hfree := h.free
    show (freeSlots (Function.update s.workers i ⟨s.nextThread, n, true, false⟩)).card + (n + 1) = _
    omega
  · intro fd hfd
    have hne : (fd : Int) ≠ n := by omega
    show Function.update s.descriptors.table n (some s.nextConn) fd = none
    rw [Function.update_of_ne hne]
    exact h.unused fd (by omega)

/-- **Any number of connections up to the number of slots.** -/
theorem exists_crowd (transport : Transport) (host : Host) {n : Nat} (hn : n ≤ maxClients) :
    ∃ s, (endlessServer transport host).Reachable s ∧ Crowd n s := by
  induction n with
  | succ n ih =>
      obtain ⟨s, hs, hcrowd⟩ := ih (Nat.le_of_succ_le hn)
      exact hcrowd.next hs hn
  | zero =>
      have hstart : (endlessServer transport host).Reachable (.start false) := .of_init ⟨false, rfl⟩
      have hopen : (endlessServer transport host).Reachable { State.start false with pc := .loopTest } :=
        hstart.next (e := .main (.listen (.ok ()))) ⟨rfl, nofun⟩
      have hreap : (endlessServer transport host).Reachable
          { State.start false with pc := .reaping 0 .poll } :=
        hopen.next (e := .main .tick) ⟨rfl, nofun⟩
      obtain ⟨es, hrun⟩ := run_reaped (s := .start false) (fun _ => rfl) (Nat.zero_add maxClients)
      have hready : (endlessServer transport host).Reachable
          { State.start false with pc := .accepting .readable } :=
        (hreap.run hrun).next (e := .main (.poll (.returned .readable))) ⟨rfl, nofun⟩
      exact ⟨_, hready, rfl, fun _ => rfl, by decide, fun _ _ => rfl⟩

/-- The connection behind the last slot is refused. -/
theorem exists_refusal (transport : Transport) (host : Host) :
    ∃ fd s s₁ s₂, (endlessServer transport host).Reachable s ∧ Refusal transport host fd s s₁ s₂ := by
  obtain ⟨s, hs, hcrowd⟩ := exists_crowd transport host (Nat.le_refl maxClients)
  have hbusy : ∀ i, (s.workers i).inUse = true := by
    intro i
    apply Bool.eq_true_of_not_eq_false
    intro hfree
    have hmem : i ∈ freeSlots s.workers := by simp [freeSlots, hfree]
    have hpos := Finset.card_pos.mpr ⟨i, hmem⟩
    have hnone := hcrowd.free
    omega
  obtain ⟨haccept, es, hrun⟩ := hcrowd.accept transport host
  exact ⟨_, s, _, _, hs, hs.of_restrict, haccept.1, ⟨es, hrun.of_restrict⟩, ⟨_, rfl⟩,
    (startWorker_emfile_iff ..).mpr hbusy⟩

/-! ## The TCP server -/

/-- **The TCP server refuses a connection only when it is full.** -/
theorem tcp_refuses_only_when_full (host : Host) (fd : Int) (s s₁ s₂ : State)
    (h : Refusal .tcp host fd s s₁ s₂) : s.Full := by
  obtain ⟨listener, -, hs₁⟩ := accept_eq h.accepted
  -- when the scan begins, a slot that is not held by a running worker is free or finished
  have hscanned : Scanned (fun i => (s.workers i).inUse = false ∨ (s.workers i).finished = true)
      s.nextConn s₁ := by
    rw [hs₁]
    refine ⟨Nat.lt_succ_self _, ?_⟩
    intro k hprogress i hi
    cases hprogress
    rcases hi with hfree | hfinished
    · exact .inl hfree
    · exact .inr ⟨Nat.zero_le _, hfinished⟩
  intro i
  have hbusy := h.busy hscanned i
  rw [not_or, Bool.not_eq_false, Bool.not_eq_true] at hbusy
  exact hbusy

/-- The sixty-fifth connection of a server whose workers are all running. -/
theorem tcp_refuses_only_when_full_run : ∃ fd s s₁ s₂,
    Refusal .tcp plainHost fd s s₁ s₂ ∧ s.Full := by
  obtain ⟨fd, s, s₁, s₂, -, h⟩ := exists_refusal .tcp plainHost
  exact ⟨fd, s, s₁, s₂, h, tcp_refuses_only_when_full plainHost fd s s₁ s₂ h⟩

/-! ## The UDS server -/

/-- No worker marks itself finished between the last look at its slot and an `accept` that returns a
connection while all slots are in use. -/
def Punctual (p : State × Late) (e : Event) : Prop :=
  ∀ fd, e = .main (.accept (.accepted fd)) → (∀ i, (p.1.workers i).inUse = true) →
    ∀ i, p.2 (p.1.workers i).thread = false

/-- The UDS server in such schedules. -/
def punctualServer (host : Host) : StepSystem (State × Late) Event :=
  (watchedServer .threadedUds host).restrict Punctual

/-- The UDS server finds no slot behind an `accept` when all were in use before it. -/
theorem Refusal.all_busy {fd : Int} {s₁ s₂ : State} (h : Refusal .threadedUds host fd s s₁ s₂)
    (i : Slot) : (s.workers i).inUse = true := by
  obtain ⟨listener, -, hs₁⟩ := accept_eq h.accepted
  -- nothing is joined behind the `accept`, so only the free slots are of use
  have hscanned : Scanned (fun i => (s.workers i).inUse = false) s.nextConn s₁ := by
    rw [hs₁]
    exact ⟨Nat.lt_succ_self _, fun k _ i hi => .inl hi⟩
  exact Bool.eq_true_of_not_eq_false (h.busy hscanned i)

/-- At an `accept`, the workers that wait to be joined are the late ones. -/
theorem Timely.late_iff {late : Late} {listener : Revents} {i : Slot} (h : Timely s late)
    (hpc : s.pc = .accepting listener) (hbusy : (s.workers i).inUse = true) :
    late (s.workers i).thread = true ↔ (s.workers i).finished = true := by
  refine ⟨h.finished i hbusy, fun hfinished => ?_⟩
  have hwaits := h.waits i hbusy hfinished
  rw [hpc] at hwaits
  exact hwaits.resolve_right id

/-- A connection that finds all slots in use is refused with `EMFILE`, unless `fcntl` fails first. -/
theorem refusal_of_busy {fd : Int} {s₁ : State}
    (hs : (Transport.threadedUds.server host).Reachable s)
    (haccept : step .threadedUds host s (.main (.accept (.accepted fd))) = some s₁)
    (hbusy : ∀ i, (s.workers i).inUse = true) :
    Refusal .threadedUds host fd s s₁ s₁ ∧ ∃ listener s₂,
      step .threadedUds host s₁ (.main (.configure true .fair)) = some s₂ ∧
        s₂.pc = .rejecting fd s.nextConn listener := by
  obtain ⟨listener, -, rfl⟩ := accept_eq haccept
  have hrefused : (Transport.threadedUds.startWorker s.workers fd s.nextThread .fair).1 =
      .error .emfile := (startWorker_emfile_iff ..).mpr hbusy
  refine ⟨⟨hs, haccept, ⟨[], .nil⟩, ⟨listener, rfl⟩, hrefused⟩, listener, ?_⟩
  obtain ⟨workers, hstart⟩ : ∃ workers, Transport.threadedUds.startWorker s.workers fd s.nextThread
      .fair = (.error .emfile, workers) := ⟨_, Prod.ext hrefused rfl⟩
  refine ⟨_, rfl, ?_⟩
  simp only [State.connected, State.configure, if_true, hstart]

/-- **The UDS server refuses a connection for workers that have finished.** In every run in which no
worker marks itself finished between the last look at its slot and an `accept` that returns a connection
while all slots are in use, connections are refused only when the server is full. And wherever a worker
does, the connection is refused although the server is not full. -/
theorem uds_refusal_justified (host : Host) :
    (∀ fd s late s₁ s₂, (punctualServer host).Reachable (s, late) →
      Punctual (s, late) (.main (.accept (.accepted fd))) →
      Refusal .threadedUds host fd s s₁ s₂ → s.Full) ∧
    ∀ fd s late s₁, (watchedServer .threadedUds host).Reachable (s, late) →
      step .threadedUds host s (.main (.accept (.accepted fd))) = some s₁ →
      ¬ Punctual (s, late) (.main (.accept (.accepted fd))) →
      ¬ s.Full ∧ Refusal .threadedUds host fd s s₁ s₁ ∧ ∃ listener s₂,
        step .threadedUds host s₁ (.main (.configure true .fair)) = some s₂ ∧
          s₂.pc = .rejecting fd s.nextConn listener := by
  constructor
  · intro fd s late s₁ s₂ hs hpunctual h i
    have hbusy := h.all_busy
    obtain ⟨listener, hpc, -⟩ := accept_eq h.accepted
    refine ⟨hbusy i, Bool.eq_false_of_not_eq_true fun hfinished => ?_⟩
    -- the worker has finished, so it is late
    have hlate := ((timely_of_reachable hs.of_restrict).late_iff hpc (hbusy i)).mpr hfinished
    have honTime : late (s.workers i).thread = false := hpunctual fd rfl hbusy i
    rw [honTime] at hlate
    cases hlate
  · intro fd s late s₁ hs haccept hlate
    unfold Punctual at hlate
    push Not at hlate
    obtain ⟨fd', -, hbusy, i, hlate⟩ := hlate
    have hreachable : (Transport.threadedUds.server host).Reachable s :=
      (StepSystem.projects_watch _ _ _).reachable hs
    refine ⟨fun hfull => ?_, refusal_of_busy hreachable haccept hbusy⟩
    have hfinished := (timely_of_reachable hs).finished i (hbusy i) (by simpa using hlate)
    rw [(hfull i).2] at hfinished
    cases hfinished

/-- A run in which no worker marks itself finished. -/
theorem punctual_of_endless (h : (endlessServer .threadedUds host).Reachable s) :
    (punctualServer host).Reachable (s, fun _ => false) := by
  obtain ⟨s₀, es, hinit, hrun⟩ := h
  refine ⟨(s₀, fun _ => false), es, ⟨hinit, rfl⟩, hrun.watch_of_unnoted fun s e he => ?_⟩
  refine ⟨?_, fun _ _ _ _ => rfl⟩
  unfold noteLate
  split
  · exact absurd rfl (he _)
  · split <;> rfl
  · rfl

/-- Sixty-four connections in one round of the accept loop, the first of which then ends: its worker
has marked itself finished. -/
def crowdLeaves : List Event :=
  let connections := (List.range maxClients).flatMap fun fd =>
    [.main (.accept (.accepted fd)), .main (.configure true .fair)]
  let leaves := [.worker 0 .enter, .worker 0 (.serve (.stopTest false)),
    .worker 0 (.serve (.process .fair)), .worker 0 (.serve (.poll .failed)), .worker 0 .close,
    .worker 0 .markFinished]
  listening ++ scan ++ [.main (.poll (.returned .readable))] ++ connections ++ leaves

/-- In the accept loop. -/
def Pc.inAccept : Pc → Bool
  | .accepting listener => listener = .readable
  | _ => false

theorem inAccept_iff {pc : Pc} : pc.inAccept = true ↔ pc = .accepting .readable := by
  cases pc <;> simp [Pc.inAccept]

/-- All slots are in use, and the first worker has finished, when the next connection comes. -/
theorem exists_waiting : ∃ fd s s₁ listener,
    (Transport.threadedUds.server plainHost).Reachable s ∧
    step .threadedUds plainHost s (.main (.accept (.accepted fd))) = some s₁ ∧
    s.pc = .accepting listener ∧ (∀ i, (s.workers i).inUse = true) ∧
    ∃ i, (s.workers i).finished = true := by
  obtain ⟨s, hs, hp⟩ := server_reaches .threadedUds plainHost crowdLeaves
    (fun s => s.pc.inAccept && ((List.finRange maxClients).all fun i => (s.workers i).inUse) &&
      (s.workers ⟨0, by decide⟩).finished && (s.descriptors.table maxClients).isNone)
    (by decide +kernel)
  simp only [Bool.and_eq_true, inAccept_iff, List.all_eq_true, List.mem_finRange, true_implies,
    Option.isNone_iff_eq_none] at hp
  obtain ⟨⟨⟨hpc, hbusy⟩, hfinished⟩, hunused⟩ := hp
  have haccept := step_accept .threadedUds plainHost hpc (Int.natCast_nonneg maxClients) hunused
  exact ⟨_, s, _, _, hs, haccept, hpc, hbusy, _, hfinished⟩

/-- The sixty-fifth connection of a server whose workers are all running, and of one whose first
worker is late. -/
theorem uds_refusal_justified_run :
    (∃ fd s late s₁ s₂, (punctualServer plainHost).Reachable (s, late) ∧
      Refusal .threadedUds plainHost fd s s₁ s₂ ∧ s.Full) ∧
    ∃ fd s late s₁, (watchedServer .threadedUds plainHost).Reachable (s, late) ∧
      Refusal .threadedUds plainHost fd s s₁ s₁ ∧ ¬ s.Full := by
  constructor
  · obtain ⟨fd, s, s₁, s₂, hs, h⟩ := exists_refusal .threadedUds plainHost
    have hpunctual := punctual_of_endless hs
    exact ⟨fd, s, _, s₁, s₂, hpunctual, h, (uds_refusal_justified plainHost).1 fd s _ s₁ s₂ hpunctual
      (fun _ _ _ _ => rfl) h⟩
  · obtain ⟨fd, s, s₁, listener, hs, haccept, hpc, hbusy, i, hfinished⟩ := exists_waiting
    obtain ⟨late, hwatched⟩ := hs.watch (fun _ => false) noteLate
    have hlate := ((timely_of_reachable hwatched).late_iff hpc (hbusy i)).mpr hfinished
    have hlater : ¬ Punctual (s, late) (.main (.accept (.accepted fd))) := by
      intro hpunctual
      cases hlate.symm.trans (hpunctual fd rfl hbusy i)
    obtain ⟨hfull, hrefusal, -⟩ :=
      (uds_refusal_justified plainHost).2 fd s late s₁ hwatched haccept hlater
    exact ⟨fd, s, late, s₁, hwatched, hrefusal, hfull⟩

/-- The sixty-fifth connection is refused while a slot waits to be joined. -/
theorem uds_refused_while_finished : ∃ fd s s₁,
    Refusal .threadedUds plainHost fd s s₁ s₁ ∧
      (∃ listener s₂, step .threadedUds plainHost s₁ (.main (.configure true .fair)) = some s₂ ∧
        s₂.pc = .rejecting fd s.nextConn listener) ∧
      ∃ i, (s.workers i).inUse = true ∧ (s.workers i).finished = true := by
  obtain ⟨fd, s, s₁, listener, hs, haccept, hpc, hbusy, i, hfinished⟩ := exists_waiting
  obtain ⟨hrefusal, hrejected⟩ := refusal_of_busy hs haccept hbusy
  exact ⟨fd, s, s₁, hrefusal, hrejected, i, hbusy i, hfinished⟩

end WireCommand.Threaded.Server
