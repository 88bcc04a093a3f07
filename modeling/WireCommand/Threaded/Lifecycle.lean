import Mathlib.Data.Fintype.Card
import WireCommand.Threaded.Effect

/-!
# The life of workers and descriptors

What becomes of the threads and of the accepted descriptors of a threaded server, in every
interleaving of the main thread with any number of workers.

A step is first reduced to its effect on the table of workers, on the threads and on the descriptors
(`Effect`, `step_effect`). The descriptors are in custody (`Foundation.Custody`): the accept loop
owns one from the `accept` until it has started a worker or has closed it, and a worker owns its own
until it closes it. A worker closes its descriptor *before* it marks itself finished, so the number
may belong to a new connection while the old slot is still in use; that is why the custody is of
connections and not of numbers.

* `State.Valid` is the invariant. One of its fields is that what a worker does inside the server is what
  `Session` says about a worker on its own.
* `worker_lifecycle` is the account of all threads and descriptors in every reachable state.
-/

namespace WireCommand.Threaded.Server

open Foundation

variable {transport : Transport} {host : Host} {s s' : State}

/-! ## Owners -/

/-- The descriptor a thread has or is going to read from its slot, with its connection. -/
def State.held (s : State) (t : ThreadId) : Option (Int × Nat) :=
  match (s.threads t).stage with
  | .entering => some ((s.workers (s.threads t).slot).clientFd, (s.threads t).conn)
  | .serving _ => some ((s.threads t).clientFd, (s.threads t).conn)
  | _ => none

/-- A party owns a descriptor, which stands for a connection. -/
def State.Owns (s : State) : Party → Int → Nat → Prop
  | .acceptLoop, fd, conn => s.pc.pending = some (fd, conn)
  | .worker t, fd, conn => t < s.nextThread ∧ s.held t = some (fd, conn)

/-- A party may have closed a connection: the worker that was started for it, or the accept loop if
there is none. -/
def State.Responsible (s : State) (conn : Nat) : Party → Prop
  | .acceptLoop => ∀ t, t < s.nextThread → (s.threads t).conn ≠ conn
  | .worker t => t < s.nextThread ∧ (s.threads t).conn = conn

/-! ## Threads and slots -/

/-- A slot in use belongs to the one thread of it that has not been joined. -/
structure SlotsOk (s : State) : Prop where
  busy : ∀ i, (s.workers i).inUse = true →
    (s.workers i).thread < s.nextThread ∧ (s.threads (s.workers i).thread).slot = i ∧
      (s.threads (s.workers i).thread).joins = 0
  unjoined : ∀ t, t < s.nextThread → (s.threads t).joins = 0 →
    (s.workers (s.threads t).slot).inUse = true ∧ (s.workers (s.threads t).slot).thread = t
  joined : ∀ t, t < s.nextThread → (s.threads t).joins = 0 ∨
    ((s.threads t).joins = 1 ∧ (s.threads t).stage = .exited)
  /-- An older thread of a slot has been joined. -/
  reuse : ∀ t t', t < t' → t' < s.nextThread → (s.threads t).slot = (s.threads t').slot →
    (s.threads t).joins ≠ 0

/-- The slot of a thread that has not ended. -/
theorem SlotsOk.running (hs : SlotsOk s) {t : ThreadId} (ht : t < s.nextThread)
    (hstage : (s.threads t).stage ≠ .exited) :
    (s.threads t).joins = 0 ∧ (s.workers (s.threads t).slot).inUse = true ∧
      (s.workers (s.threads t).slot).thread = t := by
  rcases hs.joined t ht with hjoins | ⟨-, hexited⟩
  · exact ⟨hjoins, hs.unjoined t ht hjoins⟩
  · exact absurd hexited hstage

/-- What matters of a step that creates and joins no thread. -/
theorem SlotsOk.congr (hs : SlotsOk s)
    (hworkers : ∀ i, (s'.workers i).inUse = (s.workers i).inUse ∧
      ((s.workers i).inUse = true → (s'.workers i).thread = (s.workers i).thread))
    (hthreads : ∀ t, (s'.threads t).slot = (s.threads t).slot ∧
      (s'.threads t).joins = (s.threads t).joins ∧
      ((s.threads t).stage = .exited → (s'.threads t).stage = .exited))
    (hnext : s'.nextThread = s.nextThread) : SlotsOk s' where
  busy := by
    intro i hi
    rw [(hworkers i).1] at hi
    rw [(hworkers i).2 hi, hnext, (hthreads _).1, (hthreads _).2.1]
    exact hs.busy i hi
  unjoined := by
    intro t ht hjoins
    rw [hnext] at ht
    rw [(hthreads t).2.1] at hjoins
    obtain ⟨hbusy, hthread⟩ := hs.unjoined t ht hjoins
    rw [(hthreads t).1, (hworkers _).1, (hworkers _).2 hbusy]
    exact ⟨hbusy, hthread⟩
  joined := by
    intro t ht
    rw [hnext] at ht
    rw [(hthreads t).2.1]
    exact (hs.joined t ht).imp_right fun ⟨hjoins, hexited⟩ => ⟨hjoins, (hthreads t).2.2 hexited⟩
  reuse := by
    intro t t' hlt ht' hslot
    rw [hnext] at ht'
    rw [(hthreads t).1, (hthreads t').1] at hslot
    rw [(hthreads t).2.1]
    exact hs.reuse t t' hlt ht' hslot

/-- A worker that has not ended goes on. -/
theorem threads_update {threads : ThreadId → Thread} {t : ThreadId} {thread : Thread}
    (hslot : thread.slot = (threads t).slot) (hjoins : thread.joins = (threads t).joins)
    (hstage : (threads t).stage ≠ .exited) (u : ThreadId) :
    (Function.update threads t thread u).slot = (threads u).slot ∧
      (Function.update threads t thread u).joins = (threads u).joins ∧
      ((threads u).stage = .exited → (Function.update threads t thread u).stage = .exited) := by
  by_cases hu : u = t
  · subst hu
    rw [Function.update_self]
    exact ⟨hslot, hjoins, fun h => absurd h hstage⟩
  · rw [Function.update_of_ne hu]
    exact ⟨rfl, rfl, id⟩

/-- A worker is started in a free slot. -/
theorem SlotsOk.start (hs : SlotsOk s) {i : Slot} {fd : Int} {conn : Nat}
    (hfree : (s.workers i).inUse = false)
    (hworkers : s'.workers = Function.update s.workers i ⟨s.nextThread, fd, true, false⟩)
    (hthreads : s'.threads = Function.update s.threads s.nextThread ⟨i, 0, .entering, conn, 0⟩)
    (hnext : s'.nextThread = s.nextThread + 1) : SlotsOk s' := by
  -- an old thread that has not been joined has another slot
  have hother : ∀ t, t < s.nextThread → (s.threads t).joins = 0 → (s.threads t).slot ≠ i := by
    intro t ht hjoins hslot
    have := (hs.unjoined t ht hjoins).1
    rw [hslot, hfree] at this
    cases this
  have hold : ∀ t, t < s.nextThread → s'.threads t = s.threads t := by
    intro t ht
    rw [hthreads, Function.update_of_ne (Nat.ne_of_lt ht)]
  have hnew : s'.threads s.nextThread = ⟨i, 0, .entering, conn, 0⟩ := by
    rw [hthreads, Function.update_self]
  refine ⟨?_, ?_, ?_, ?_⟩
  · intro j hj
    by_cases hji : j = i
    · subst hji
      rw [hworkers, Function.update_self, hnew, hnext]
      exact ⟨Nat.lt_succ_self _, rfl, rfl⟩
    · rw [hworkers, Function.update_of_ne hji] at hj ⊢
      obtain ⟨hlt, hrest⟩ := hs.busy j hj
      rw [hold _ hlt, hnext]
      exact ⟨Nat.lt_succ_of_lt hlt, hrest⟩
  · intro t ht hjoins
    rw [hnext] at ht
    rcases Nat.lt_succ_iff_lt_or_eq.mp ht with ht | rfl
    · rw [hold t ht] at hjoins ⊢
      rw [hworkers, Function.update_of_ne (hother t ht hjoins)]
      exact hs.unjoined t ht hjoins
    · rw [hnew, hworkers, Function.update_self]
      exact ⟨rfl, rfl⟩
  · intro t ht
    rw [hnext] at ht
    rcases Nat.lt_succ_iff_lt_or_eq.mp ht with ht | rfl
    · rw [hold t ht]
      exact hs.joined t ht
    · rw [hnew]
      exact .inl rfl
  · intro t t' hlt ht' hslot
    rw [hnext] at ht'
    rcases Nat.lt_succ_iff_lt_or_eq.mp ht' with ht' | rfl
    · rw [hold t (hlt.trans ht')] at hslot ⊢
      rw [hold t' ht'] at hslot
      exact hs.reuse t t' hlt ht' hslot
    · rw [hold t hlt] at hslot ⊢
      rw [hnew] at hslot
      exact fun hjoins => hother t hlt hjoins hslot

/-- The thread of a slot has ended and is joined. -/
theorem SlotsOk.join (hs : SlotsOk s) {i : Slot} (hbusy : (s.workers i).inUse = true)
    (hexited : (s.threads (s.workers i).thread).stage = .exited)
    (hworkers : s'.workers = Function.update s.workers i (s.workers i).released)
    (hthreads : s'.threads = Function.update s.threads (s.workers i).thread
      { s.threads (s.workers i).thread with
        joins := (s.threads (s.workers i).thread).joins + 1 })
    (hnext : s'.nextThread = s.nextThread) : SlotsOk s' := by
  obtain ⟨hlt, hslot, hjoins⟩ := hs.busy i hbusy
  -- one thread and one slot change: the thread that is joined, and the slot it had
  have hslots : ∀ u, (s'.threads u).slot = (s.threads u).slot := by
    intro u
    by_cases hu : u = (s.workers i).thread
    · rw [hthreads, hu, Function.update_self]
    · rw [hthreads, Function.update_of_ne hu]
  have hother : ∀ u, u ≠ (s.workers i).thread → s'.threads u = s.threads u := by
    intro u hu
    rw [hthreads, Function.update_of_ne hu]
  have hthis : (s'.threads (s.workers i).thread).joins = 1 := by
    rw [hthreads, Function.update_self, hjoins]
  refine ⟨?_, ?_, ?_, ?_⟩
  · intro j hj
    by_cases hji : j = i
    · rw [hworkers, hji, Function.update_self] at hj
      cases hj
    · rw [hworkers, Function.update_of_ne hji] at hj ⊢
      obtain ⟨hlt', hslot', hjoins'⟩ := hs.busy j hj
      have hne : (s.workers j).thread ≠ (s.workers i).thread := by
        intro heq
        rw [heq, hslot] at hslot'
        exact hji hslot'.symm
      rw [hother _ hne, hnext]
      exact ⟨hlt', hslot', hjoins'⟩
  · intro t ht hjoins'
    rw [hnext] at ht
    by_cases hne : t = (s.workers i).thread
    · rw [hne, hthis] at hjoins'
      cases hjoins'
    · rw [hother t hne] at hjoins' ⊢
      obtain ⟨hbusy', hthread⟩ := hs.unjoined t ht hjoins'
      have hji : (s.threads t).slot ≠ i := by
        intro heq
        rw [heq] at hthread
        exact hne hthread.symm
      rw [hworkers, Function.update_of_ne hji]
      exact ⟨hbusy', hthread⟩
  · intro t ht
    rw [hnext] at ht
    by_cases hne : t = (s.workers i).thread
    · rw [hne]
      refine .inr ⟨hthis, ?_⟩
      rw [hthreads, Function.update_self]
      exact hexited
    · rw [hother t hne]
      exact hs.joined t ht
  · intro t t' htt' ht' hsame
    rw [hnext] at ht'
    rw [hslots, hslots] at hsame
    by_cases hne : t = (s.workers i).thread
    · rw [hne, hthis]
      exact Nat.one_ne_zero
    · rw [hother t hne]
      exact hs.reuse t t' htt' ht' hsame

theorem Effect.slots (heffect : Effect transport host s s') (hs : SlotsOk s) : SlotsOk s' := by
  have hsame : ∀ i, (s.workers i).inUse = (s.workers i).inUse ∧
      ((s.workers i).inUse = true → (s.workers i).thread = (s.workers i).thread) :=
    fun i => ⟨rfl, fun _ => rfl⟩
  cases heffect with
  | quiet | accepted | rejected => exact hs.congr hsame (fun t => ⟨rfl, rfl, id⟩) rfl
  | withdrawn pc workers _ hworkers _ =>
      refine hs.congr (fun i => ?_) (fun t => ⟨rfl, rfl, id⟩) rfl
      rcases hworkers i with heq | ⟨hfree, hfree'⟩
      · exact ⟨congrArg Worker.inUse heq, fun _ => congrArg Worker.thread heq⟩
      · exact ⟨hfree'.trans hfree.symm, fun h => absurd h (by rw [hfree]; nofun)⟩
  | started pc i fd conn _ _ hfree _ => exact hs.start hfree rfl rfl rfl
  | joined pc i _ hbusy hexited _ => exact hs.join hbusy hexited rfl rfl rfl
  | entered t _ hstage | served t _ _ _ _ hstage _ | closed t _ _ hstage | exited t _ hstage =>
      exact hs.congr hsame (threads_update rfl rfl (by rw [hstage]; nofun)) rfl
  | marked t _ hstage =>
      refine hs.congr (fun i => ?_) (threads_update rfl rfl (by rw [hstage]; nofun)) rfl
      by_cases hi : i = (s.threads t).slot
      · subst hi
        simp
      · simp [hi]

/-! ## Connections and their owners -/

/-- Each connection has at most one worker, and the one in the hands of the accept loop has none. -/
structure ConnsOk (s : State) : Prop where
  conn_lt : ∀ t, t < s.nextThread → (s.threads t).conn < s.nextConn
  conn_inj : ∀ t t', t < s.nextThread → t' < s.nextThread →
    (s.threads t).conn = (s.threads t').conn → t = t'
  pending : ∀ fd conn, s.pc.pending = some (fd, conn) →
    ∀ t, t < s.nextThread → (s.threads t).conn ≠ conn

/-- What matters of a step that brings and starts nothing. -/
theorem ConnsOk.congr (hs : ConnsOk s) (hthreads : ∀ t, (s'.threads t).conn = (s.threads t).conn)
    (hnext : s'.nextThread = s.nextThread) (hconn : s'.nextConn = s.nextConn)
    (hpending : s'.pc.pending = s.pc.pending ∨ s'.pc.pending = none) : ConnsOk s' := by
  refine ⟨?_, ?_, ?_⟩
  · simpa only [hthreads, hnext, hconn] using hs.conn_lt
  · simpa only [hthreads, hnext] using hs.conn_inj
  · intro fd conn h
    rcases hpending with heq | hnone
    · simpa only [hthreads, hnext] using hs.pending fd conn (heq ▸ h)
    · rw [hnone] at h
      cases h

/-- Setting a thread's stage does not change the connections. -/
theorem conn_update {threads : ThreadId → Thread} {t : ThreadId} {thread : Thread}
    (hconn : thread.conn = (threads t).conn) (u : ThreadId) :
    (Function.update threads t thread u).conn = (threads u).conn := by
  by_cases hu : u = t
  · subst hu
    rw [Function.update_self, hconn]
  · rw [Function.update_of_ne hu]

theorem Effect.conns (heffect : Effect transport host s s') (hs : ConnsOk s)
    (hcustody : s.descriptors.Sound s.Owns (· < s.nextConn)) : ConnsOk s' := by
  cases heffect with
  | quiet pc _ _ hpending _ => exact hs.congr (fun _ => rfl) rfl rfl (.inl hpending)
  | withdrawn pc _ hpending _ _ => exact hs.congr (fun _ => rfl) rfl rfl (.inl hpending)
  | rejected pc _ _ hidle _ _ => exact hs.congr (fun _ => rfl) rfl rfl (.inr hidle)
  | joined pc _ hpending _ _ _ => exact hs.congr (conn_update rfl) rfl rfl (.inl hpending)
  | entered | served | closed | marked | exited =>
      exact hs.congr (conn_update rfl) rfl rfl (.inl rfl)
  | accepted pc fd _ hpending _ _ =>
      refine ⟨fun t ht => Nat.lt_succ_of_lt (hs.conn_lt t ht), hs.conn_inj, ?_⟩
      intro fd' conn h t ht heq
      -- the connection is new
      cases hpending.symm.trans h
      exact absurd heq (Nat.ne_of_lt (hs.conn_lt t ht))
  | started pc i fd conn hidle hpending _ _ =>
      have hold : ∀ t, t < s.nextThread →
          (Function.update s.threads s.nextThread ⟨i, 0, .entering, conn, 0⟩ t) = s.threads t :=
        fun t ht => Function.update_of_ne (Nat.ne_of_lt ht) _ _
      have hissued : conn < s.nextConn :=
        (hcustody.owned (p := .acceptLoop) (n := fd) hpending).1
      refine ⟨?_, ?_, ?_⟩
      · intro t ht
        rcases Nat.lt_succ_iff_lt_or_eq.mp ht with ht | rfl
        · simpa only [hold t ht] using hs.conn_lt t ht
        · simpa only [Function.update_self] using hissued
      · intro t t' ht ht' heq
        rcases Nat.lt_succ_iff_lt_or_eq.mp ht with ht | rfl <;>
          rcases Nat.lt_succ_iff_lt_or_eq.mp ht' with ht' | rfl
        · simp only [hold t ht, hold t' ht'] at heq
          exact hs.conn_inj t t' ht ht' heq
        · simp only [hold t ht, Function.update_self] at heq
          exact absurd heq (hs.pending fd conn hpending t ht)
        · simp only [hold t' ht', Function.update_self] at heq
          exact absurd heq.symm (hs.pending fd conn hpending t' ht')
        · rfl
      · intro fd' conn' h
        cases hidle.symm.trans h

theorem held_conn {t : ThreadId} {fd : Int} {conn : Nat} (h : s.held t = some (fd, conn)) :
    (s.threads t).conn = conn := by
  unfold State.held at h
  split at h <;> cases h <;> rfl

/-- A thread's descriptor depends on its slot only until it has read it. -/
theorem held_congr {t : ThreadId} (hthread : s'.threads t = s.threads t)
    (hslot : (s.threads t).stage = .entering →
      (s'.workers (s.threads t).slot).clientFd = (s.workers (s.threads t).slot).clientFd) :
    s'.held t = s.held t := by
  unfold State.held
  rw [hthread]
  split
  · next hstage => rw [hslot hstage]
  · rfl
  · rfl

/-- The owners stay the same when the accept loop and each thread keep what they have. -/
theorem owns_congr (hpending : s'.pc.pending = s.pc.pending) (hnext : s'.nextThread = s.nextThread)
    (hheld : ∀ t, t < s.nextThread → s'.held t = s.held t) (p : Party) (fd : Int) (conn : Nat) :
    s'.Owns p fd conn ↔ s.Owns p fd conn := by
  cases p with
  | acceptLoop => simp only [State.Owns, hpending]
  | worker t =>
      simp only [State.Owns, hnext]
      exact and_congr_right fun ht => by rw [hheld t ht]

/-- The slots of the threads that have not read their descriptors are left alone. -/
theorem SlotsOk.held_eq (hs : SlotsOk s) {t : ThreadId} (ht : t < s.nextThread)
    (hthread : s'.threads t = s.threads t)
    (hslots : ∀ i, (s.workers i).inUse = true → (s.workers i).thread = t →
      (s'.workers i).clientFd = (s.workers i).clientFd) : s'.held t = s.held t := by
  apply held_congr hthread
  intro hstage
  obtain ⟨-, hbusy, hslot⟩ := hs.running ht (by rw [hstage]; nofun)
  exact hslots _ hbusy hslot

/-- One thread changes its stage, and all the threads keep what they have. -/
theorem owns_of_thread {t : ThreadId} (hpending : s'.pc.pending = s.pc.pending)
    (hnext : s'.nextThread = s.nextThread) (hthis : s'.held t = s.held t)
    (hother : ∀ u, u ≠ t → s'.threads u = s.threads u)
    (hworkers : ∀ i, (s'.workers i).clientFd = (s.workers i).clientFd)
    (p : Party) (fd : Int) (conn : Nat) : s'.Owns p fd conn ↔ s.Owns p fd conn := by
  refine owns_congr hpending hnext (fun u _ => ?_) p fd conn
  by_cases hu : u = t
  · exact hu ▸ hthis
  · exact held_congr (hother u hu) fun _ => hworkers _

/-- The accept loop gives away what it has: to a worker, or back. -/
theorem ConnsOk.owns_idle (hs : ConnsOk s) {fd : Int} {conn : Nat}
    (hpending : s.pc.pending = some (fd, conn)) (hidle : s'.pc.pending = none)
    {p : Party} {fd' : Int} {conn' : Nat}
    (hheld : ∀ t, p = .worker t → (s'.Owns p fd' conn' ↔ s.Owns p fd' conn')) :
    s'.Owns p fd' conn' ↔ s.Owns p fd' conn' ∧ conn' ≠ conn := by
  cases p with
  | acceptLoop =>
      simp only [State.Owns, hidle, hpending, Option.some.injEq, Prod.mk.injEq, reduceCtorEq,
        false_iff]
      rintro ⟨⟨-, rfl⟩, hne⟩
      exact hne rfl
  | worker t =>
      rw [hheld t rfl, iff_self_and]
      rintro ⟨ht, hheld⟩ rfl
      exact hs.pending fd conn' hpending t ht (held_conn hheld)

/-- **Custody.** Every step hands descriptors over as the rules say. -/
theorem Effect.custody (heffect : Effect transport host s s') (hslots : SlotsOk s)
    (hconns : ConnsOk s) (hcustody : s.descriptors.Sound s.Owns (· < s.nextConn)) :
    s'.descriptors.Sound s'.Owns (· < s'.nextConn) := by
  cases heffect with
  | quiet pc _ _ hpending _ => exact hcustody.congr (owns_congr hpending rfl fun _ _ => rfl)
  | accepted pc fd hidle hpending hfd _ =>
      refine hcustody.acquire (p := .acceptLoop) hfd (Nat.lt_irrefl _) ?_ ?_
      · intro p fd' conn
        cases p with
        | acceptLoop => simp [State.Owns, hidle, hpending, eq_comm]
        | worker t => simp [State.Owns, State.held]
      · intro conn
        exact Nat.lt_succ_iff_lt_or_eq
  | withdrawn pc workers hpending hworkers _ =>
      refine hcustody.congr (owns_congr hpending rfl fun t ht => hslots.held_eq ht rfl ?_)
      intro i hbusy _
      rcases hworkers i with heq | ⟨hfree, -⟩
      · exact congrArg Worker.clientFd heq
      · rw [hbusy] at hfree
        cases hfree
  | started pc i fd conn hidle hpending hfree _ =>
      refine hcustody.transfer (p := .acceptLoop) (q := .worker s.nextThread) hpending ?_
      intro p fd' conn'
      by_cases hp : p = .worker s.nextThread
      · -- the new thread is going to read the descriptor from its slot
        subst hp
        simp [State.Owns, State.held, eq_comm]
      · simp only [hp, false_and, or_false]
        refine hconns.owns_idle hpending hidle ?_
        rintro t rfl
        have hne : t ≠ s.nextThread := fun h => hp (congrArg Party.worker h)
        have hlt : t < s.nextThread + 1 ↔ t < s.nextThread :=
          Nat.lt_succ_iff_lt_or_eq.trans (or_iff_left hne)
        simp only [State.Owns, hlt]
        refine and_congr_right fun ht => ?_
        rw [hslots.held_eq ht (Function.update_of_ne hne _ _)]
        intro j hbusy _
        have hji : j ≠ i := by
          rintro rfl
          rw [hbusy] at hfree
          cases hfree
        simp [hji]
  | rejected pc fd conn hidle hpending _ =>
      have howns : s.Owns .acceptLoop fd conn := hpending
      refine hcustody.release howns fun p fd' conn' => ?_
      refine hconns.owns_idle hpending hidle ?_
      rintro t rfl
      exact Iff.rfl
  | joined pc i hpending hbusy hexited _ =>
      refine hcustody.congr (owns_congr hpending rfl fun u hu => ?_)
      by_cases hthread : u = (s.workers i).thread
      · -- the thread that is joined has nothing any more
        simp [State.held, hthread, hexited]
      · refine hslots.held_eq hu (Function.update_of_ne hthread _ _) fun j _ hj => ?_
        have hji : j ≠ i := fun h => hthread (h ▸ hj.symm)
        simp [State.joined, hji]
  | entered t ht hstage | served t ht _ _ _ hstage _ =>
      refine hcustody.congr (owns_of_thread rfl rfl ?_ (fun u hu => Function.update_of_ne hu _ _)
        fun _ => rfl)
      simp [State.held, State.setStage, hstage]
  | marked t ht hstage =>
      refine hcustody.congr (owns_of_thread rfl rfl ?_ (fun u hu => Function.update_of_ne hu _ _)
        fun i => ?_)
      · simp [State.held, State.setStage, hstage]
      · by_cases hi : i = (s.threads t).slot
        · subst hi
          simp
        · simp [hi]
  | exited t ht hstage =>
      refine hcustody.congr (owns_of_thread rfl rfl ?_ (fun u hu => Function.update_of_ne hu _ _)
        fun _ => rfl)
      simp [State.held, State.setStage, hstage]
  | closed t ht session hstage =>
      have howns : s.Owns (.worker t) (s.threads t).clientFd (s.threads t).conn := by
        refine ⟨ht, ?_⟩
        unfold State.held
        rw [hstage]
      refine hcustody.release howns fun p fd conn => ?_
      cases p with
      | acceptLoop =>
          refine (and_iff_left_of_imp ?_).symm
          rintro hpending rfl
          exact hconns.pending fd _ hpending t ht rfl
      | worker u =>
          by_cases hu : u = t
          · subst hu
            simp only [State.Owns, State.held, State.setStage, Function.update_self, reduceCtorEq,
              and_false, hstage, false_iff]
            rintro ⟨⟨-, heq⟩, hne⟩
            cases heq
            exact hne rfl
          · have hheld : (s.setStage t .closed).held u = s.held u :=
              held_congr (Function.update_of_ne hu _ _) fun _ => rfl
            show u < s.nextThread ∧ (s.setStage t .closed).held u = _ ↔ _
            rw [hheld]
            refine (and_iff_left_of_imp ?_).symm
            rintro ⟨hlt, h⟩ rfl
            exact hu (hconns.conn_inj u t hlt ht (held_conn h))

/-- Only the worker of a connection closes it, or the accept loop if it has no worker. -/
def Closers (s : State) : Prop :=
  ∀ conn p, p ∈ s.descriptors.releasedBy conn → s.Responsible conn p

theorem State.Responsible.congr {conn : Nat} {p : Party} (h : s.Responsible conn p)
    (hthreads : ∀ t, (s'.threads t).conn = (s.threads t).conn)
    (hnext : s'.nextThread = s.nextThread) : s'.Responsible conn p := by
  cases p <;> simpa only [State.Responsible, hthreads, hnext] using h

theorem Effect.closers (heffect : Effect transport host s s') (hs : Closers s)
    (hconns : ConnsOk s) (hcustody : s.descriptors.Sound s.Owns (· < s.nextConn)) :
    Closers s' := by
  intro conn p hp
  cases heffect with
  | quiet | accepted | withdrawn => exact hs conn p hp
  | joined | entered | served | marked | exited =>
      exact (hs conn p hp).congr (conn_update rfl) rfl
  | started pc i fd conn' _ hpending _ _ =>
      have hunclosed : s.descriptors.releasedBy conn' = [] :=
        (hcustody.owned (p := .acceptLoop) (n := fd) hpending).2
      have hold : ∀ t, t < s.nextThread →
          (Function.update s.threads s.nextThread ⟨i, 0, .entering, conn', 0⟩ t) = s.threads t :=
        fun t ht => Function.update_of_ne (Nat.ne_of_lt ht) _ _
      have hthen := hs conn p hp
      cases p with
      | acceptLoop =>
          intro t ht
          rcases Nat.lt_succ_iff_lt_or_eq.mp ht with ht | rfl
          · simpa only [hold t ht] using hthen t ht
          · -- the connection of the new thread has not been closed
            simp only [Function.update_self]
            rintro rfl
            rw [show s.descriptors.releasedBy conn' = [] from hunclosed] at hp
            cases hp
      | worker t =>
          obtain ⟨ht, hconn⟩ := hthen
          exact ⟨Nat.lt_succ_of_lt ht, by simpa only [hold t ht] using hconn⟩
  | rejected pc fd conn' _ hpending _ =>
      have hopen := (hcustody.table_iff fd conn').mpr ⟨.acceptLoop, hpending⟩
      rcases Custody.mem_release hopen hp with hp | ⟨rfl, rfl⟩
      · exact hs conn p hp
      · exact hconns.pending fd conn hpending
  | closed t ht session hstage =>
      have hheld : s.held t = some ((s.threads t).clientFd, (s.threads t).conn) := by
        unfold State.held
        rw [hstage]
      have hopen := (hcustody.table_iff _ _).mpr ⟨.worker t, ht, hheld⟩
      have hthen : s.Responsible conn p := by
        rcases Custody.mem_release hopen hp with hp | ⟨rfl, rfl⟩
        · exact hs conn p hp
        · exact ⟨ht, rfl⟩
      exact hthen.congr (conn_update rfl) rfl

/-! ## Sessions -/

/-- What the workers do is what `Session` says. -/
def SessionsOk (transport : Transport) (host : Host) (s : State) : Prop :=
  ∀ t session, t < s.nextThread → (s.threads t).stage = .serving session →
    (transport.worker host).Reachable session

/-- A thread is created, or changes its stage. -/
theorem SessionsOk.update (hs : SessionsOk transport host s) {t : ThreadId} {thread : Thread}
    (hthreads : s'.threads = Function.update s.threads t thread)
    (hnext : ∀ u, u < s'.nextThread → u ≠ t → u < s.nextThread)
    (hthread : ∀ session, thread.stage = .serving session →
      (transport.worker host).Reachable session) : SessionsOk transport host s' := by
  intro u session hu hstage
  rw [hthreads] at hstage
  by_cases hut : u = t
  · subst hut
    rw [Function.update_self] at hstage
    exact hthread session hstage
  · rw [Function.update_of_ne hut] at hstage
    exact hs u session (hnext u hu hut) hstage

theorem Effect.sessions (heffect : Effect transport host s s')
    (hs : SessionsOk transport host s) : SessionsOk transport host s' := by
  cases heffect with
  | quiet | accepted | withdrawn | rejected => exact hs
  | started pc i fd conn _ _ _ _ =>
      refine hs.update rfl (fun u hu hne => ?_) fun session hstage => ?_
      · exact Nat.lt_of_le_of_ne (Nat.le_of_lt_succ hu) hne
      · cases hstage
  | joined pc i _ _ hexited _ =>
      refine hs.update rfl (fun _ hu _ => hu) fun session hstage => ?_
      cases hexited.symm.trans hstage
  | entered t _ _ =>
      refine hs.update rfl (fun _ hu _ => hu) fun session hstage => ?_
      cases hstage
      rw [worker_eq]
      exact .of_init rfl
  | served t ht session session' e hstage hstep =>
      refine hs.update rfl (fun _ hu _ => hu) fun session'' hstage' => ?_
      cases hstage'
      have hreached := hs t session ht hstage
      rw [worker_eq] at hreached ⊢
      exact hreached.next hstep
  | closed | marked | exited =>
      refine hs.update rfl (fun _ hu _ => hu) fun session hstage => ?_
      cases hstage

/-! ## Every run -/

theorem PcOk.congr {workers workers' : Workers} {pc : Pc} (h : PcOk workers pc)
    (hworkers : ∀ i, (workers' i).inUse = (workers i).inUse ∧
      (workers' i).thread = (workers i).thread) : PcOk workers' pc := by
  cases pc with
  | opening | joining _ _ _ | joiningAll _ _ | destroying _ | finished _ =>
      simpa only [PcOk, hworkers] using h
  | _ => trivial

theorem Effect.pcOk (heffect : Effect transport host s s') (h : PcOk s.workers s.pc) :
    PcOk s'.workers s'.pc := by
  cases heffect with
  | quiet _ _ _ _ hpc | accepted _ _ _ _ _ hpc | withdrawn _ _ _ _ hpc | rejected _ _ _ _ _ hpc
  | joined _ _ _ _ _ hpc => exact hpc
  | started _ _ _ _ _ _ _ hpc => exact hpc _
  | entered | served | closed | exited => exact h
  | marked t ht hstage =>
      refine h.congr fun i => ?_
      by_cases hi : i = (s.threads t).slot
      · subst hi
        simp
      · simp [hi]

/-- The invariant of a threaded server. -/
structure State.Valid (transport : Transport) (host : Host) (s : State) : Prop where
  pc : PcOk s.workers s.pc
  slots : SlotsOk s
  conns : ConnsOk s
  custody : s.descriptors.Sound s.Owns (· < s.nextConn)
  closers : Closers s
  sessions : SessionsOk transport host s

theorem Effect.valid (heffect : Effect transport host s s') (hs : s.Valid transport host) :
    s'.Valid transport host where
  pc := heffect.pcOk hs.pc
  slots := heffect.slots hs.slots
  conns := heffect.conns hs.conns hs.custody
  custody := heffect.custody hs.slots hs.conns hs.custody
  closers := heffect.closers hs.closers hs.conns hs.custody
  sessions := heffect.sessions hs.sessions

theorem valid_start (stopRequested : Bool) : (State.start stopRequested).Valid transport host where
  pc := fun _ => rfl
  slots := ⟨nofun, nofun, nofun, nofun⟩
  conns := ⟨nofun, nofun, nofun⟩
  custody := by
    have hempty := Custody.sound_empty (N := Int) (R := Nat) (P := Party)
    have hissued : (fun conn : Nat => conn < 0) = fun _ => False := by
      funext conn
      exact eq_false (Nat.not_lt_zero conn)
    show Custody.empty.Sound _ (fun conn : Nat => conn < 0)
    rw [hissued]
    refine hempty.congr fun p fd conn => ?_
    cases p with
    | acceptLoop => simp [State.Owns, State.start, Pc.pending]
    | worker t => simp [State.Owns, State.start]
  closers := nofun
  sessions := fun t _ ht _ => absurd ht (Nat.not_lt_zero t)

theorem server_inductive (transport : Transport) (host : Host) :
    (transport.server host).Inductive (State.Valid transport host) where
  init := by
    rintro s ⟨stopRequested, rfl⟩
    exact valid_start stopRequested
  step := by
    intro s e s' hs hstep
    exact (step_effect hs.pc hstep).valid hs

theorem valid_of_reachable (hs : (transport.server host).Reachable s) : s.Valid transport host :=
  (server_inductive transport host).reachable hs

/-- The threads that have been created and not joined. -/
def State.unjoined (s : State) : Finset ThreadId :=
  (Finset.range s.nextThread).filter fun t => (s.threads t).joins = 0

/-- No two of them have the same slot, so there are at most as many as slots. -/
theorem SlotsOk.card_unjoined (hs : SlotsOk s) : s.unjoined.card ≤ maxClients := by
  -- the slot knows its thread, so the slot of an unjoined thread determines it
  have hinj : Set.InjOn (fun t => (s.threads t).slot) s.unjoined := by
    intro t ht u hu hslot
    simp only [State.unjoined, Finset.coe_filter, Finset.mem_range, Set.mem_ofPred_eq] at ht hu
    have hthread := (hs.unjoined t ht.1 ht.2).2
    rw [show (s.threads t).slot = (s.threads u).slot from hslot] at hthread
    exact hthread.symm.trans (hs.unjoined u hu.1 hu.2).2
  calc s.unjoined.card
      ≤ (Finset.univ : Finset Slot).card :=
        Finset.card_le_card_of_injOn _ (fun _ _ => Finset.mem_univ _) hinj
    _ = maxClients := by rw [Finset.card_univ, Fintype.card_fin]

/-- When no slot is in use, every thread has been joined. -/
theorem SlotsOk.all_joined (hs : SlotsOk s) (hfree : ∀ i, (s.workers i).inUse = false)
    {t : ThreadId} (ht : t < s.nextThread) :
    (s.threads t).joins = 1 ∧ (s.threads t).stage = .exited := by
  rcases hs.joined t ht with hjoins | hjoined
  · have hbusy := (hs.unjoined t ht hjoins).1
    rw [hfree] at hbusy
    cases hbusy
  · exact hjoined

/-- Everything is over: all threads have been joined and have ended, no client's descriptor is open,
each connection has been closed once by the one responsible for it, and no slot is in use. -/
structure State.Quiet (s : State) : Prop where
  joined : ∀ t, t < s.nextThread → (s.threads t).joins = 1 ∧ (s.threads t).stage = .exited
  descriptors : ∀ fd, s.descriptors.table fd = none
  closed : ∀ conn, conn < s.nextConn →
    ∃ p, s.descriptors.releasedBy conn = [p] ∧ s.Responsible conn p
  slots : ∀ i, (s.workers i).inUse = false

theorem State.Valid.quiet (hs : s.Valid transport host) (hidle : s.pc.pending = none)
    (hfree : ∀ i, (s.workers i).inUse = false) : s.Quiet := by
  have hjoined := fun t ht => hs.slots.all_joined hfree (t := t) ht
  have hnone : ∀ p fd conn, ¬ s.Owns p fd conn := by
    intro p fd conn howns
    cases p with
    | acceptLoop => cases hidle.symm.trans howns
    | worker t =>
        obtain ⟨ht, hheld⟩ := howns
        rw [State.held, (hjoined t ht).2] at hheld
        cases hheld
  obtain ⟨hdescriptors, hclosed⟩ := hs.custody.all_released hnone
  refine ⟨hjoined, hdescriptors, ?_, hfree⟩
  intro conn hconn
  obtain ⟨p, hp⟩ := hclosed conn hconn
  exact ⟨p, hp, hs.closers conn p (by rw [hp]; exact List.mem_singleton_self p)⟩

/-- The accounts of a threaded server. -/
structure State.Accounted (s : State) : Prop where
  /-- No thread is joined twice. -/
  joined_once : ∀ t, t < s.nextThread → (s.threads t).joins ≤ 1
  /-- A thread is joined before its slot is given to another one. -/
  joined_before_reuse : ∀ t t', t < t' → t' < s.nextThread →
    (s.threads t).slot = (s.threads t').slot → (s.threads t).joins = 1
  /-- So the threads of a free slot, which is all a connection is ever given, have been joined. -/
  joined_in_free_slot : ∀ t, t < s.nextThread → (s.workers (s.threads t).slot).inUse = false →
    (s.threads t).joins = 1
  capacity : s.unjoined.card ≤ maxClients
  /-- An open descriptor has exactly one owner, and what a party owns is open. -/
  owned : ∀ fd conn, s.descriptors.table fd = some conn → ∃! p, s.Owns p fd conn
  open_of_owned : ∀ p fd conn, s.Owns p fd conn → s.descriptors.table fd = some conn
  /-- No connection is closed twice, and no number is closed that is not open. -/
  closed_once : ∀ conn, (s.descriptors.releasedBy conn).length ≤ 1
  no_stray_close : s.descriptors.stray = 0
  /-- A connection is closed by its worker, or by the accept loop if it has no worker. -/
  closed_by : ∀ conn p, p ∈ s.descriptors.releasedBy conn → s.Responsible conn p
  /-- A connection has at most one worker. -/
  one_worker : ∀ t t', t < s.nextThread → t' < s.nextThread →
    (s.threads t).conn = (s.threads t').conn → t = t'
  /-- The mutex is destroyed, and the server returns, when everything is over. -/
  quiet_at_destroy : ∀ result, s.pc = .destroying result → s.Quiet
  quiet_at_return : ∀ result, s.pc = .finished result → s.Quiet

/-- **The life of workers and descriptors.** In every interleaving of the main thread of a threaded
server with its workers, and whatever `accept`, `poll`, `fcntl`, the signal mask calls and
`pthread_create` return, the accounts are right. -/
theorem worker_lifecycle (transport : Transport) (host : Host)
    (hs : (transport.server host).Reachable s) : s.Accounted := by
  have hvalid := valid_of_reachable hs
  -- the fields in their order: joins, owners, closes, and the two ends
  refine ⟨?_, ?_, ?_, hvalid.slots.card_unjoined, ?_, ?_, ?_, hvalid.custody.stray,
    hvalid.closers, hvalid.conns.conn_inj, ?_, ?_⟩
  · intro t ht
    rcases hvalid.slots.joined t ht with hjoins | ⟨hjoins, -⟩ <;> omega
  · intro t t' hlt ht' hslot
    rcases hvalid.slots.joined t (hlt.trans ht') with hjoins | ⟨hjoins, -⟩
    · exact absurd hjoins (hvalid.slots.reuse t t' hlt ht' hslot)
    · exact hjoins
  · intro t ht hfree
    rcases hvalid.slots.joined t ht with hjoins | ⟨hjoins, -⟩
    · rw [(hvalid.slots.unjoined t ht hjoins).1] at hfree
      cases hfree
    · exact hjoins
  · intro fd conn
    exact hvalid.custody.exists_unique_owner
  · intro p fd conn hp
    exact (hvalid.custody.table_iff fd conn).mpr ⟨p, hp⟩
  · intro conn
    rcases hvalid.custody.released_once conn with h | ⟨p, h⟩ <;> simp [h]
  · intro result hpc
    have hfree := hvalid.pc
    rw [hpc] at hfree
    exact hvalid.quiet (by rw [hpc]; rfl) hfree
  · intro result hpc
    have hfree := hvalid.pc
    rw [hpc] at hfree
    exact hvalid.quiet (by rw [hpc]; rfl) hfree

/-- A whole call of `wc_tcp_reap_finished` that finds nothing, or of `wc_tcp_join_all`. -/
def scan : List Event := List.replicate (maxClients + 1) (.main .tick)

/-- The listener is opened, and the loop entered. -/
def listening : List Event := [.main (.listen (.ok ())), .main .tick]

/-- A connection arrives, with descriptor 5. -/
def arrival : List Event := [.main (.poll (.returned .readable)), .main (.accept (.accepted 5))]

/-- The first worker is started, and its `poll` fails. It has closed its descriptor but has not
marked itself finished when the second connection gets the same number. -/
def sameNumber : List Event :=
  [.main (.configure true .fair), .worker 0 .enter, .worker 0 (.serve (.stopTest false)),
    .worker 0 (.serve (.process .fair)), .worker 0 (.serve (.poll .failed)), .worker 0 .close,
    .main (.accept (.accepted 5))]

/-- The second worker is started, and the server is stopped. -/
def stopped : List Event :=
  [.main (.configure true .fair), .main (.accept .wouldBlock), .main .tick, .signal, .main .tick,
    .main .tick, .worker 1 .enter, .worker 1 (.serve (.stopTest true)), .worker 1 .close,
    .worker 1 .markFinished, .worker 0 .markFinished, .worker 1 .exit, .worker 0 .exit,
    .main (.closeListener (.ok ()) (.ok ()))]

/-- A TCP server with two connections. -/
def twoConnections : List Event :=
  [listening, scan, arrival, scan, sameNumber, scan, stopped, scan, [.main .tick]].flatten

/-- The server has returned, and the result. -/
def Pc.hasReturned (result : Except Errno Unit) : Pc → Bool
  | .finished r => r = result
  | _ => false

theorem hasReturned_iff {pc : Pc} {result : Except Errno Unit} :
    pc.hasReturned result = true ↔ pc = .finished result := by
  cases pc <;> simp [Pc.hasReturned]

/-- A run of a threaded server. -/
theorem server_reaches (transport : Transport) (host : Host) (es : List Event)
    (test : State → Bool)
    (h : (StepSystem.exec (step transport host) (.start false) es).any test = true) :
    ∃ s, (transport.server host).Reachable s ∧ test s = true :=
  StepSystem.exists_reachable ⟨false, rfl⟩ h

/-- Two connections with the same number, and their two workers. -/
theorem worker_lifecycle_run : ∃ s, (Transport.tcp.server plainHost).Reachable s ∧
    s.pc = .finished (.ok ()) ∧ s.nextConn = 2 ∧ s.nextThread = 2 ∧ s.Quiet := by
  obtain ⟨s, hs, hp⟩ := server_reaches .tcp plainHost twoConnections
    (fun s => s.pc.hasReturned (.ok ()) && s.nextConn = 2 && s.nextThread = 2)
    (by decide +kernel)
  simp only [Bool.and_eq_true, decide_eq_true_eq, hasReturned_iff] at hp
  obtain ⟨⟨hpc, hconn⟩, hthread⟩ := hp
  exact ⟨s, hs, hpc, hconn, hthread, (worker_lifecycle .tcp plainHost hs).quiet_at_return _ hpc⟩

end WireCommand.Threaded.Server
