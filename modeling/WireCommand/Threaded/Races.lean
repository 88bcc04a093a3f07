import WireCommand.Foundation.Race
import WireCommand.Foundation.Simulation
import WireCommand.Threaded.Lifecycle

/-!
# The threaded servers have no data races

The table of workers, the flag and the mutex are in one `struct` on the stack of
`wc_server_tcp_run`, and the workers have pointers into it. Only some of the accesses are made under
the mutex: `wc_tcp_start_worker` fills a slot without it, `wc_tcp_worker_main` reads its slot without
it, and `wc_tcp_mark_finished` reads `client_fd` once more behind the `pthread_mutex_unlock`, for the
log. `actions` is what each step does to that memory, in the order of the source. Setting the `struct`
up, and giving the stack back at the end, are writes to all of it; a call for the mutex reads the mutex,
as far as its lifetime is concerned.

`data_race_free` says that so every two accesses that conflict are ordered: by the mutex, or because a
slot is written only before its thread is created and behind the `pthread_join`.
-/

namespace WireCommand.Threaded.Server

open Foundation History

variable {transport : Transport} {host : Host} {s s' : State} {e : Event}

/-! ## What the threads do to the table -/

/-- A thread of the process. -/
inductive Actor where
  | main
  | worker (t : ThreadId)
  deriving DecidableEq

/-- The fields of `struct wc_tcp_worker`. -/
inductive WorkerField where
  | thread
  | clientFd
  | inUse
  | finished
  | server
  deriving DecidableEq

/-- The memory of `struct wc_tcp_server`. -/
inductive Location where
  | mutex
  | stopping
  | slot (i : Slot) (field : WorkerField)
  deriving DecidableEq

/-- An action of a thread of the server, which has one mutex. -/
abbrev TableAction := Action Actor Unit Location

/-- Under `workers_lock`. -/
def locked (as : List TableAction) : List TableAction :=
  [.read .mutex] ++ .lock () :: (as ++ [.read .mutex] ++ [.unlock ()])

def allFields (i : Slot) : List Location :=
  [.slot i .thread, .slot i .clientFd, .slot i .inUse, .slot i .finished, .slot i .server]

/-- The whole `struct`. -/
def allLocations : List Location :=
  .mutex :: .stopping :: (List.finRange maxClients).flatMap allFields

/-- An iteration of `wc_tcp_reap_finished`, up to the join. -/
def reapActions (workers : Workers) (i : Slot) : List TableAction :=
  locked (.read (.slot i .inUse) ::
    if (workers i).inUse then
      .read (.slot i .finished) ::
        if (workers i).finished then [.read (.slot i .thread)] else []
    else [])

/-- `pthread_join`, and the slot is released. -/
def joinActions (i : Slot) (t : ThreadId) : List TableAction :=
  .join (.worker t) :: [.write (.slot i .clientFd), .write (.slot i .inUse)]

/-- `wc_tcp_start_worker`. The new thread may run before its number is stored. -/
def startActions (workers : Workers) (t : ThreadId) (env : StartEnv) : List TableAction :=
  match (List.finRange maxClients).find? fun i => !(workers i).inUse with
  | none => (List.finRange maxClients).map fun i => .read (.slot i .inUse)
  | some i =>
      ((List.finRange maxClients).takeWhile fun j => (workers j).inUse).map
          (fun j => .read (.slot j .inUse)) ++
        [.read (.slot i .inUse), .write (.slot i .clientFd), .write (.slot i .finished),
          .write (.slot i .inUse)] ++
        match env.result with
        | .error _ => [.write (.slot i .thread), .write (.slot i .clientFd), .write (.slot i .inUse)]
        | .ok () => .fork (.worker t) :: [.write (.slot i .thread)]

/-- What a step of the main thread does to the table. -/
def mainActions (s : State) : MainEvent → List TableAction
  | .listen _ => allLocations.map .write
  | .tick =>
      match s.pc with
      | .reaping next _ => if h : next < maxClients then reapActions s.workers ⟨next, h⟩ else []
      | .joining i t _ => joinActions i t
      | .stopping _ => locked [.write .stopping]
      | .joiningAll next _ =>
          if h : next < maxClients then
            .read (.slot ⟨next, h⟩ .inUse) ::
              if (s.workers ⟨next, h⟩).inUse then
                .read (.slot ⟨next, h⟩ .thread) ::
                  joinActions ⟨next, h⟩ (s.workers ⟨next, h⟩).thread
              else []
          else []
      | .destroying _ => allLocations.map .write
      | _ => []
  | .configure nonblockingOk env => if nonblockingOk then startActions s.workers s.nextThread env else []
  | _ => []

/-- What a step of a worker does to the table. -/
def workerActions (i : Slot) : WorkerEvent → List TableAction
  | .enter => [.read (.slot i .server), .read (.slot i .clientFd)]
  | .serve (.stopTest _) => locked [.read .stopping]
  | .serve _ => []
  | .close => []
  | .markFinished =>
      .read (.slot i .server) :: locked [.write (.slot i .finished), .read (.slot i .server)]
  -- the log behind the `pthread_mutex_unlock`
  | .exit => [.read (.slot i .clientFd)]

/-- What a step does to the table. -/
def actions (s : State) (e : Event) (_ : State) : History Actor Unit Location :=
  match e with
  | .signal => []
  | .main e => block .main (mainActions s e)
  | .worker t e => block (.worker t) (workerActions (s.threads t).slot e)

/-! ## The discipline -/

/-- What a worker does to the table. -/
inductive WorkerMay (i : Slot) : TableAction → Prop
  | lock : WorkerMay i (.lock ())
  | unlock : WorkerMay i (.unlock ())
  | mutex : WorkerMay i (.read .mutex)
  | stopping : WorkerMay i (.read .stopping)
  | server : WorkerMay i (.read (.slot i .server))
  | clientFd : WorkerMay i (.read (.slot i .clientFd))
  | finished : WorkerMay i (.write (.slot i .finished))

/-- What a worker does only under the mutex. -/
inductive Guarded : TableAction → Prop
  | stopping : Guarded (.read .stopping)
  | finished {i : Slot} : Guarded (.write (.slot i .finished))

/-- The writes that must not happen while a worker has the slot. -/
inductive Disturbs (i : Slot) : TableAction → Prop
  | mutex : Disturbs i (.write .mutex)
  | server : Disturbs i (.write (.slot i .server))
  | clientFd : Disturbs i (.write (.slot i .clientFd))

/-- What may happen under the mutex only, while a worker has the slot. -/
inductive Shares (i : Slot) : TableAction → Prop
  | stopping : Shares i (.write .stopping)
  | reads : Shares i (.read (.slot i .finished))
  | writes : Shares i (.write (.slot i .finished))

/-- What a worker's actions conflict with. -/
theorem WorkerMay.conflict {i : Slot} {a b : TableAction} (ha : WorkerMay i a)
    (hconflict : b.Conflicts a) : Disturbs i b ∨ (Shares i b ∧ Guarded a) := by
  cases ha <;> cases b <;> simp only [Action.Conflicts] at hconflict
  case mutex => exact .inl (hconflict ▸ .mutex)
  case stopping => exact .inr ⟨hconflict ▸ .stopping, .stopping⟩
  case server => exact .inl (hconflict ▸ .server)
  case clientFd => exact .inl (hconflict ▸ .clientFd)
  case finished.read => exact .inr ⟨hconflict ▸ .reads, .finished⟩
  case finished.write => exact .inr ⟨hconflict ▸ .writes, .finished⟩

theorem WorkerMay.not_disturbs {i j : Slot} {a : TableAction} (ha : WorkerMay i a) :
    ¬ Disturbs j a := by
  cases ha <;> exact fun h => by cases h

theorem WorkerMay.slot_eq {i j : Slot} {a : TableAction} (ha : WorkerMay i a) (hshares : Shares j a) :
    j = i := by
  cases ha <;> cases hshares
  rfl

/-- The action is no concern of the worker of the slot. -/
def Quiet (i : Slot) (a : TableAction) : Prop := ¬ Disturbs i a ∧ ¬ Shares i a

theorem quiet_read {l : Location} (hl : ∀ i, l ≠ .slot i .finished) (i : Slot) :
    Quiet i (.read l) := by
  refine ⟨(fun h => by cases h), fun h => ?_⟩
  cases h
  exact hl i rfl

theorem quiet_fork (i : Slot) (t : Actor) : Quiet i (.fork t) :=
  ⟨(fun h => by cases h), fun h => by cases h⟩

theorem quiet_join (i : Slot) (t : Actor) : Quiet i (.join t) :=
  ⟨(fun h => by cases h), fun h => by cases h⟩

/-- A slot is the concern of its own worker only. -/
theorem quiet_slot {i j : Slot} {field : WorkerField} {a : TableAction} (hne : j ≠ i)
    (ha : a = .read (.slot i field) ∨ a = .write (.slot i field)) : Quiet j a := by
  rcases ha with rfl | rfl
  · refine ⟨(fun h => by cases h), fun h => ?_⟩
    cases h
    exact hne rfl
  · refine ⟨fun h => ?_, fun h => ?_⟩ <;> cases h <;> exact hne rfl

/-- The thread has been created, and not been joined. -/
def State.Running (s : State) (t : ThreadId) : Prop :=
  t < s.nextThread ∧ (s.threads t).joins = 0

/-- **The discipline**, for what has been done to the table by the time the server is in `s`. -/
structure Disciplined (h : History Actor Unit Location) (s : State) : Prop where
  free : h.RaceFree
  created : ∀ (k : Nat) t a, h[k]? = some (Actor.worker t, a) → t < s.nextThread
  may : ∀ (k : Nat) t a, h[k]? = some (Actor.worker t, a) → WorkerMay (s.threads t).slot a
  guarded : ∀ (k : Nat) t a, h[k]? = some (Actor.worker t, a) → Guarded a → h.Released () k
  joined : ∀ (k : Nat) t a, h[k]? = some (Actor.worker t, a) → (s.threads t).joins ≠ 0 → h.Knows .main k
  disturbs : ∀ t, s.Running t → ∀ (k : Nat) q a, h[k]? = some (q, a) →
    Disturbs (s.threads t).slot a → h.Knows (.worker t) k
  shares : ∀ t, s.Running t → ∀ (k : Nat) q a, h[k]? = some (q, a) → q ≠ .worker t →
    Shares (s.threads t).slot a → h.Knows (.worker t) k ∨ h.Released () k

variable {h : History Actor Unit Location}

theorem disciplined_start (stopRequested : Bool) : Disciplined [] (.start stopRequested) where
  free := .nil
  created k t a hk := by simp at hk
  may k t a hk := by simp at hk
  guarded k t a hk := by simp at hk
  joined k t a hk := by simp at hk
  disturbs t ht := absurd ht.1 (Nat.not_lt_zero t)
  shares t ht := absurd ht.1 (Nat.not_lt_zero t)

/-! ### The main thread -/

/-- The main thread knows what a worker has done that it does not interfere with. -/
theorem Disciplined.knows_worker (hd : Disciplined h s) {a b : TableAction} {k : Nat} {t : ThreadId}
    (hk : h[k]? = some (.worker t, b)) (hconflict : b.Conflicts a)
    (hquiet : s.Running t → Quiet (s.threads t).slot a) :
    h.Knows .main k := by
  by_cases hjoins : (s.threads t).joins = 0
  · have hrunning := hquiet ⟨hd.created k t b hk, hjoins⟩
    rcases (hd.may k t b hk).conflict hconflict.symm with hdisturbs | ⟨hshares, -⟩
    · exact absurd hdisturbs hrunning.1
    · exact absurd hshares hrunning.2
  · exact hd.joined k t b hk hjoins

/-- Outside the mutex the main thread leaves the running workers alone. -/
theorem Disciplined.main_knows (hd : Disciplined h s) {a : TableAction}
    (hquiet : ∀ t, s.Running t → Quiet (s.threads t).slot a)
    {k : Nat} {q : Actor} {b : TableAction} (hk : h[k]? = some (q, b)) (hne : q ≠ .main)
    (hconflict : b.Conflicts a) : h.Knows .main k := by
  cases q with
  | main => exact absurd rfl hne
  | worker t => exact hd.knows_worker hk hconflict (hquiet t)

/-- Under the mutex it may do what it shares with them. -/
theorem Disciplined.main_knows_locked (hd : Disciplined h s) {a : TableAction}
    (hquiet : ∀ t, s.Running t → ¬ Disturbs (s.threads t).slot a) {k : Nat} {q : Actor}
    {b : TableAction} (hk : h[k]? = some (q, b)) (hne : q ≠ .main) (hconflict : b.Conflicts a) :
    h.Knows .main k ∨ h.Released () k := by
  cases q with
  | main => exact absurd rfl hne
  | worker t =>
      by_cases hjoins : (s.threads t).joins = 0
      · rcases (hd.may k t b hk).conflict hconflict.symm with hdisturbs | ⟨-, hguarded⟩
        · exact absurd hdisturbs (hquiet t ⟨hd.created k t b hk, hjoins⟩)
        · exact .inr (hd.guarded k t b hk hguarded)
      · exact .inl (hd.joined k t b hk hjoins)

/-- The step creates and joins no thread. -/
structure SameThreads (s s' : State) : Prop where
  nextThread : s'.nextThread = s.nextThread
  slot : ∀ t, (s'.threads t).slot = (s.threads t).slot
  joins : ∀ t, (s'.threads t).joins = (s.threads t).joins

theorem SameThreads.running (hsame : SameThreads s s') {t : ThreadId} (ht : s'.Running t) :
    s.Running t := by
  rw [State.Running, hsame.nextThread, hsame.joins] at ht
  exact ht

/-- The main thread does something, and no thread is created or joined. -/
theorem Disciplined.main_block (hd : Disciplined h s) (hsame : SameThreads s s')
    {as : List TableAction} (hfree : (h ++ block .main as).RaceFree)
    (hquiet : ∀ a ∈ as, ∀ t, s.Running t → ¬ Disturbs (s.threads t).slot a)
    (hshares : ∀ a ∈ as, ∀ t, s.Running t → Shares (s.threads t).slot a →
      ∃ bs, as = bs ++ [.unlock ()]) :
    Disciplined (h ++ block .main as) s' where
  free := hfree
  created k t a hk := by
    rw [hsame.nextThread]
    exact hd.created k t a (lookup_of_ne hk (by simp))
  may k t a hk := by
    rw [hsame.slot]
    exact hd.may k t a (lookup_of_ne hk (by simp))
  guarded k t a hk ha := (hd.guarded k t a (lookup_of_ne hk (by simp)) ha).append
  joined k t a hk hjoins := by
    rw [hsame.joins] at hjoins
    exact (hd.joined k t a (lookup_of_ne hk (by simp)) hjoins).append
  disturbs t ht k q a hk ha := by
    rw [hsame.slot] at ha
    rcases lookup_block hk with hold | ⟨-, -, hmem⟩
    · exact (hd.disturbs t (hsame.running ht) k q a hold ha).append
    · exact absurd ha (hquiet a hmem t (hsame.running ht))
  shares t ht k q a hk hne ha := by
    rw [hsame.slot] at ha
    rcases lookup_block hk with hold | ⟨-, rfl, hmem⟩
    · exact (hd.shares t (hsame.running ht) k q a hold hne ha).imp Knows.append Released.append
    · obtain ⟨bs, rfl⟩ := hshares a hmem t (hsame.running ht) ha
      exact .inr (released_block hk)

/-- Outside the mutex. -/
theorem Disciplined.main_plain (hd : Disciplined h s) (hsame : SameThreads s s')
    {as : List TableAction}
    (hquiet : ∀ a ∈ as, ∀ t, s.Running t →
      Quiet (s.threads t).slot a) :
    Disciplined (h ++ block .main as) s' := by
  refine hd.main_block hsame (hd.free.append fun a ha k q b => ?_)
    (fun a ha t ht => (hquiet a ha t ht).1) fun a ha t ht hshares => ?_
  · exact hd.main_knows (hquiet a ha)
  · exact absurd hshares (hquiet a ha t ht).2

/-- Under the mutex. -/
theorem Disciplined.main_locked (hd : Disciplined h s) (hsame : SameThreads s s')
    {as : List TableAction}
    (hquiet : ∀ a ∈ as, ∀ t, s.Running t → ¬ Disturbs (s.threads t).slot a) :
    Disciplined (h ++ block .main (locked as)) s' := by
  have hall : ∀ a ∈ locked as, ∀ t, s.Running t → ¬ Disturbs (s.threads t).slot a := by
    intro a ha t ht
    simp only [locked, List.cons_append, List.nil_append, List.append_assoc, List.mem_cons,
      List.mem_append, List.not_mem_nil, or_false] at ha
    rcases ha with rfl | rfl | ha | rfl | rfl
    case inr.inr.inl => exact hquiet a ha t ht
    all_goals exact fun h => by cases h
  refine hd.main_block hsame ?_ hall fun _ _ _ _ _ =>
    ⟨[.read .mutex] ++ .lock () :: (as ++ [.read .mutex]), by simp [locked]⟩
  refine hd.free.critical (fun a ha k q b => ?_) fun a ha k q b => ?_
  · rw [List.mem_singleton] at ha
    subst ha
    exact hd.main_knows fun t _ => quiet_read (fun _ h => by cases h) _
  · refine hd.main_knows_locked (hall a ?_)
    exact List.mem_append_right _ (List.mem_cons_of_mem _ ha)

theorem Disciplined.main_reap (hd : Disciplined h s) (hsame : SameThreads s s') (i : Slot) :
    Disciplined (h ++ block .main (reapActions s.workers i)) s' := by
  refine hd.main_locked hsame fun a ha t _ hdisturbs => ?_
  -- nothing is written
  cases (s.workers i).inUse <;> cases (s.workers i).finished <;> cases hdisturbs <;> simp at ha

/-- A thread is joined, behind some reads. -/
theorem Disciplined.join (hd : Disciplined h s) (hslots : SlotsOk s) {i : Slot} {t : ThreadId}
    {pc : Pc} (hthread : (s.workers i).thread = t) (pre : List TableAction)
    (hpre : ∀ a ∈ pre, ∀ j, Quiet j a) :
    Disciplined (h ++ block .main (pre ++ joinActions i t)) (s.joined i t pc) := by
  have hslot : ∀ u, s.Running u → u ≠ t → (s.threads u).slot ≠ i := by
    rintro u hu hne rfl
    exact hne ((hslots.unjoined u hu.1 hu.2).2.symm.trans hthread)
  have hpost : ∀ a ∈ [Action.write (.slot i .clientFd), .write (.slot i .inUse)],
      ∀ u, s.Running u → u ≠ t →
        Quiet (s.threads u).slot a := by
    intro a ha u hu hne
    simp only [List.mem_cons, List.not_mem_nil, or_false] at ha
    rcases ha with rfl | rfl <;> exact quiet_slot (hslot u hu hne) (.inr rfl)
  have hquiet : ∀ a ∈ pre ++ joinActions i t, ∀ u, s.Running u → u ≠ t →
      Quiet (s.threads u).slot a := by
    intro a ha u hu hne
    rcases List.mem_append.mp ha with ha | ha
    · exact hpre a ha _
    · rcases List.mem_cons.mp ha with rfl | ha
      · exact quiet_join _ _
      · exact hpost a ha u hu hne
  have hold : ∀ u, (s.joined i t pc).Running u → s.Running u ∧ u ≠ t := by
    rintro u ⟨hu, hjoins⟩
    have hne : u ≠ t := by
      rintro rfl
      simp [State.joined] at hjoins
    rw [State.joined] at hjoins
    exact ⟨⟨hu, by simpa [hne] using hjoins⟩, hne⟩
  have hsame : ∀ u, ((s.joined i t pc).threads u).slot = (s.threads u).slot := by
    intro u
    by_cases hu : u = t
    · subst hu
      simp [State.joined]
    · simp [State.joined, hu]
  refine
    { free := ?_
      created := fun k u a hk => hd.created k u a (lookup_of_ne hk (by simp))
      may := fun k u a hk => by
        rw [hsame]
        exact hd.may k u a (lookup_of_ne hk (by simp))
      guarded := fun k u a hk ha => (hd.guarded k u a (lookup_of_ne hk (by simp)) ha).append
      joined := fun k u a hk hjoins => ?_
      disturbs := fun u hu k q a hk ha => ?_
      shares := fun u hu k q a hk hne ha => ?_ }
  · refine hd.free.joined (fun a ha k q b => hd.main_knows fun u _ => hpre a ha _)
      fun a ha k q b hk hne hconflict => ?_
    cases q with
    | main => exact absurd rfl hne
    | worker u =>
        by_cases hu : u = t
        · exact .inr (by rw [hu])
        · exact .inl (hd.knows_worker hk hconflict fun hrunning => hpost a ha u hrunning hu)
  · have hk' := lookup_of_ne hk (by simp)
    by_cases hu : u = t
    · subst hu
      rw [joinActions, List.append_cons, block_append, block_append, ← List.append_assoc,
        ← List.append_assoc]
      exact (knows_joined (lookup_append hk')).append
    · have hjoins' : (s.threads u).joins ≠ 0 := by simpa [State.joined, hu] using hjoins
      exact (hd.joined k u a hk' hjoins').append
  · obtain ⟨hrunning, hne⟩ := hold u hu
    rw [hsame] at ha
    rcases lookup_block hk with hold | ⟨-, -, hmem⟩
    · exact (hd.disturbs u hrunning k q a hold ha).append
    · exact absurd ha (hquiet a hmem u hrunning hne).1
  · obtain ⟨hrunning, hut⟩ := hold u hu
    rw [hsame] at ha
    rcases lookup_block hk with hold | ⟨-, -, hmem⟩
    · exact (hd.shares u hrunning k q a hold hne ha).imp Knows.append Released.append
    · exact absurd ha (hquiet a hmem u hrunning hut).2

/-- What the main thread has done, and what the workers before have done to a free slot. -/
theorem Disciplined.knows_free (hd : Disciplined h s) (hslots : SlotsOk s) {i : Slot}
    (hfree : (s.workers i).inUse = false) {k : Nat} {q : Actor} {a : TableAction}
    (hk : h[k]? = some (q, a)) (ha : Disturbs i a ∨ Shares i a) : h.Knows .main k := by
  cases q with
  | main => exact knows_own hk
  | worker u =>
      refine hd.joined k u a hk fun hjoins => ?_
      have hmay := hd.may k u a hk
      rcases ha with ha | ha
      · exact hmay.not_disturbs ha
      · have hbusy := (hslots.unjoined u (hd.created k u a hk) hjoins).1
        rw [← hmay.slot_eq ha, hfree] at hbusy
        cases hbusy

/-- A thread is created. -/
theorem Disciplined.start (hd : Disciplined h s) (hslots : SlotsOk s) {i : Slot}
    (hfree : (s.workers i).inUse = false) {conn : Nat} {pre post : List TableAction}
    (hpre : ∀ a ∈ pre, ∀ t, s.Running t →
      Quiet (s.threads t).slot a)
    (hpost : ∀ a ∈ post, ∀ j, Quiet j a)
    (hthreads : s'.threads = Function.update s.threads s.nextThread ⟨i, 0, .entering, conn, 0⟩)
    (hnext : s'.nextThread = s.nextThread + 1) :
    Disciplined (h ++ block .main (pre ++ .fork (.worker s.nextThread) :: post)) s' := by
  have hquiet : ∀ a ∈ pre ++ .fork (.worker s.nextThread) :: post, ∀ t, s.Running t →
      Quiet (s.threads t).slot a := by
    intro a ha t ht
    rcases List.mem_append.mp ha with ha | ha
    · exact hpre a ha t ht
    · rcases List.mem_cons.mp ha with rfl | ha
      · exact quiet_fork _ _
      · exact hpost a ha _
  have hold : ∀ t, t < s.nextThread → s'.threads t = s.threads t := by
    intro t ht
    rw [hthreads, Function.update_of_ne (Nat.ne_of_lt ht)]
  have hnew : (s'.threads s.nextThread).slot = i := by rw [hthreads, Function.update_self]
  have hrunning : ∀ t, s'.Running t → t ≠ s.nextThread → s.Running t := by
    rintro t ⟨ht, hjoins⟩ hne
    rw [hnext] at ht
    have ht' : t < s.nextThread := Nat.lt_of_le_of_ne (Nat.lt_succ_iff.mp ht) hne
    exact ⟨ht', by rwa [hold t ht'] at hjoins⟩
  -- the new thread knows all that the main thread knows, and what is done behind the creation does
  -- not concern it
  have hknows : ∀ (k : Nat) q a, (h ++ block .main (pre ++ .fork (.worker s.nextThread) :: post))[k]? =
      some (q, a) → Disturbs i a ∨ Shares i a →
      (h ++ block .main (pre ++ .fork (.worker s.nextThread) :: post)).Knows
        (.worker s.nextThread) k := by
    intro k q a hk ha
    rw [List.append_cons, block_append, block_append, ← List.append_assoc, ← List.append_assoc] at hk ⊢
    rcases lookup_block hk with hk | ⟨-, -, hmem⟩
    · rcases lookup_block hk with hk | ⟨-, -, hmem⟩
      · refine (Knows.forked ?_).append
        rcases lookup_block hk with hk' | ⟨-, rfl, -⟩
        · exact (hd.knows_free hslots hfree hk' ha).append
        · exact knows_own hk
      · rw [List.mem_singleton] at hmem
        subst hmem
        rcases ha with ha | ha <;> cases ha
    · rcases ha with ha | ha
      · exact absurd ha (hpost a hmem i).1
      · exact absurd ha (hpost a hmem i).2
  refine
    { free := hd.free.append fun a ha k q b => hd.main_knows (hquiet a ha)
      created := fun k t a hk => ?_
      may := fun k t a hk => ?_
      guarded := fun k t a hk ha => (hd.guarded k t a (lookup_of_ne hk (by simp)) ha).append
      joined := fun k t a hk hjoins => ?_
      disturbs := fun t ht k q a hk ha => ?_
      shares := fun t ht k q a hk hne ha => ?_ }
  · rw [hnext]
    exact Nat.lt_succ_of_lt (hd.created k t a (lookup_of_ne hk (by simp)))
  · have hk' := lookup_of_ne hk (by simp)
    rw [hold t (hd.created k t a hk')]
    exact hd.may k t a hk'
  · have hk' := lookup_of_ne hk (by simp)
    rw [hold t (hd.created k t a hk')] at hjoins
    exact (hd.joined k t a hk' hjoins).append
  · by_cases hne : t = s.nextThread
    · subst hne
      rw [hnew] at ha
      exact hknows k q a hk (.inl ha)
    · have ht' := hrunning t ht hne
      rw [hold t ht'.1] at ha
      rcases lookup_block hk with hk | ⟨-, -, hmem⟩
      · exact (hd.disturbs t ht' k q a hk ha).append
      · exact absurd ha (hquiet a hmem t ht').1
  · by_cases hnt : t = s.nextThread
    · subst hnt
      rw [hnew] at ha
      exact .inl (hknows k q a hk (.inr ha))
    · have ht' := hrunning t ht hnt
      rw [hold t ht'.1] at ha
      rcases lookup_block hk with hk | ⟨-, -, hmem⟩
      · exact (hd.shares t ht' k q a hk hne ha).imp Knows.append Released.append
      · exact absurd ha (hquiet a hmem t ht').2

/-! ### The workers -/

/-- Two running workers have different slots. -/
theorem SlotsOk.running_inj (hslots : SlotsOk s) {t u : ThreadId} (ht : s.Running t)
    (hu : s.Running u) (hslot : (s.threads t).slot = (s.threads u).slot) : t = u := by
  rw [← (hslots.unjoined t ht.1 ht.2).2, hslot, (hslots.unjoined u hu.1 hu.2).2]

/-- A worker does something. -/
theorem Disciplined.worker_block (hd : Disciplined h s) (hslots : SlotsOk s)
    (hsame : SameThreads s s') {t : ThreadId} (ht : s.Running t) {as : List TableAction}
    (hfree : (h ++ block (.worker t) as).RaceFree) (hmay : ∀ a ∈ as, WorkerMay (s.threads t).slot a)
    (hguarded : ∀ a ∈ as, Guarded a → ∃ bs, as = bs ++ [.unlock ()]) :
    Disciplined (h ++ block (.worker t) as) s' where
  free := hfree
  created k u a hk := by
    rw [hsame.nextThread]
    rcases lookup_block hk with hk | ⟨-, hu, -⟩
    · exact hd.created k u a hk
    · cases hu
      exact ht.1
  may k u a hk := by
    rw [hsame.slot]
    rcases lookup_block hk with hk | ⟨-, hu, hmem⟩
    · exact hd.may k u a hk
    · cases hu
      exact hmay a hmem
  guarded k u a hk ha := by
    rcases lookup_block hk with hk | ⟨-, hu, hmem⟩
    · exact (hd.guarded k u a hk ha).append
    · cases hu
      obtain ⟨bs, rfl⟩ := hguarded a hmem ha
      exact released_block hk
  joined k u a hk hjoins := by
    rw [hsame.joins] at hjoins
    rcases lookup_block hk with hk | ⟨-, hu, -⟩
    · exact (hd.joined k u a hk hjoins).append
    · cases hu
      exact absurd ht.2 hjoins
  disturbs u hu k q a hk ha := by
    rw [hsame.slot] at ha
    rcases lookup_block hk with hk | ⟨-, -, hmem⟩
    · exact (hd.disturbs u (hsame.running hu) k q a hk ha).append
    · exact absurd ha (hmay a hmem).not_disturbs
  shares u hu k q a hk hne ha := by
    rw [hsame.slot] at ha
    rcases lookup_block hk with hk | ⟨-, rfl, hmem⟩
    · exact (hd.shares u (hsame.running hu) k q a hk hne ha).imp Knows.append Released.append
    · -- what workers share with the main thread is not shared among them
      have hut := hslots.running_inj (hsame.running hu) ht ((hmay a hmem).slot_eq ha)
      exact absurd (by rw [hut]) hne

/-- What a worker does outside the mutex. -/
theorem Disciplined.worker_knows (hd : Disciplined h s) {t : ThreadId} (ht : s.Running t)
    {a : TableAction} (hmay : WorkerMay (s.threads t).slot a) (hplain : ¬ Guarded a) {k : Nat}
    {q : Actor} {b : TableAction} (hk : h[k]? = some (q, b)) (hconflict : b.Conflicts a) :
    h.Knows (.worker t) k := by
  rcases hmay.conflict hconflict with hdisturbs | ⟨-, hguarded⟩
  · exact hd.disturbs t ht k q b hk hdisturbs
  · exact absurd hguarded hplain

/-- What it does under the mutex. -/
theorem Disciplined.worker_knows_locked (hd : Disciplined h s) {t : ThreadId} (ht : s.Running t)
    {a : TableAction} (hmay : WorkerMay (s.threads t).slot a) {k : Nat} {q : Actor} {b : TableAction}
    (hk : h[k]? = some (q, b)) (hne : q ≠ .worker t) (hconflict : b.Conflicts a) :
    h.Knows (.worker t) k ∨ h.Released () k := by
  rcases hmay.conflict hconflict with hdisturbs | ⟨hshares, -⟩
  · exact .inl (hd.disturbs t ht k q b hk hdisturbs)
  · exact hd.shares t ht k q b hk hne hshares

theorem Disciplined.worker_plain (hd : Disciplined h s) (hslots : SlotsOk s)
    (hsame : SameThreads s s') {t : ThreadId} (ht : s.Running t) {as : List TableAction}
    (has : ∀ a ∈ as, WorkerMay (s.threads t).slot a ∧ ¬ Guarded a) :
    Disciplined (h ++ block (.worker t) as) s' := by
  refine hd.worker_block hslots hsame ht (hd.free.append fun a ha k q b hk _ => ?_)
    (fun a ha => (has a ha).1) fun a ha hguarded => absurd hguarded (has a ha).2
  exact hd.worker_knows ht (has a ha).1 (has a ha).2 hk

theorem Disciplined.worker_locked (hd : Disciplined h s) (hslots : SlotsOk s)
    (hsame : SameThreads s s') {t : ThreadId} (ht : s.Running t) (pre as : List TableAction)
    (hpre : ∀ a ∈ pre, WorkerMay (s.threads t).slot a ∧ ¬ Guarded a)
    (has : ∀ a ∈ as, WorkerMay (s.threads t).slot a) :
    Disciplined (h ++ block (.worker t) (pre ++ locked as)) s' := by
  have hcrit : ∀ a ∈ as ++ [.read .mutex] ++ [.unlock ()], WorkerMay (s.threads t).slot a := by
    intro a ha
    simp only [List.append_assoc, List.mem_append, List.mem_singleton] at ha
    rcases ha with ha | rfl | rfl
    · exact has a ha
    · exact .mutex
    · exact .unlock
  have hpre' : ∀ a ∈ pre ++ [.read .mutex], WorkerMay (s.threads t).slot a ∧ ¬ Guarded a := by
    intro a ha
    rcases List.mem_append.mp ha with ha | ha
    · exact hpre a ha
    · rw [List.mem_singleton] at ha
      subst ha
      exact ⟨.mutex, fun h => by cases h⟩
  have hshape : pre ++ locked as =
      (pre ++ [.read .mutex]) ++ .lock () :: (as ++ [.read .mutex] ++ [.unlock ()]) := by
    simp [locked]
  rw [hshape]
  refine hd.worker_block hslots hsame ht (hd.free.critical (fun a ha k q b hk _ => ?_)
    fun a ha k q b hk hne => ?_) (fun a ha => ?_) fun _ _ _ =>
      ⟨(pre ++ [.read .mutex]) ++ .lock () :: (as ++ [.read .mutex]), by simp⟩
  · exact hd.worker_knows ht (hpre' a ha).1 (hpre' a ha).2 hk
  · exact hd.worker_knows_locked ht (hcrit a ha) hk hne
  · rcases List.mem_append.mp ha with ha | ha
    · exact (hpre' a ha).1
    · rcases List.mem_cons.mp ha with rfl | ha
      · exact .lock
      · exact hcrit a ha

/-! ## Every step -/

/-- **A step of a worker keeps the discipline.** -/
theorem Disciplined.worker (hd : Disciplined h s) (hslots : SlotsOk s) (hsame : SameThreads s s')
    {t : ThreadId} (ht : s.Running t) (e : WorkerEvent) :
    Disciplined (h ++ block (.worker t) (workerActions (s.threads t).slot e)) s' := by
  have hnone : Disciplined (h ++ block (.worker t) []) s' :=
    hd.worker_plain hslots hsame ht fun a ha => (List.not_mem_nil ha).elim
  cases e with
  | enter =>
      refine hd.worker_plain hslots hsame ht fun a ha => ?_
      simp only [workerActions, List.mem_cons, List.not_mem_nil, or_false] at ha
      rcases ha with rfl | rfl
      · exact ⟨.server, fun h => by cases h⟩
      · exact ⟨.clientFd, fun h => by cases h⟩
  | serve e =>
      cases e with
      | stopTest b =>
          refine hd.worker_locked hslots hsame ht [] [.read .stopping]
            (fun a ha => (List.not_mem_nil ha).elim) fun a ha => ?_
          rw [List.mem_singleton] at ha
          exact ha ▸ .stopping
      | _ => exact hnone
  | close => exact hnone
  | markFinished =>
      refine hd.worker_locked hslots hsame ht [.read (.slot _ .server)] _ (fun a ha => ?_)
        fun a ha => ?_
      · rw [List.mem_singleton] at ha
        subst ha
        exact ⟨.server, fun h => by cases h⟩
      · simp only [List.mem_cons, List.not_mem_nil, or_false] at ha
        rcases ha with rfl | rfl
        · exact .finished
        · exact .server
  | exit =>
      refine hd.worker_plain hslots hsame ht fun a ha => ?_
      rw [workerActions, List.mem_singleton] at ha
      subst ha
      exact ⟨.clientFd, fun h => by cases h⟩

theorem WorkerMove.sameThreads {t : ThreadId} {e : WorkerEvent}
    (hmove : WorkerMove transport host s t e s') : SameThreads s s' := by
  cases hmove <;> refine ⟨rfl, fun u => ?_, fun u => ?_⟩ <;> by_cases hu : u = t <;>
    simp [State.setStage, Function.update, hu]

theorem WorkerMove.not_exited {t : ThreadId} {e : WorkerEvent}
    (hmove : WorkerMove transport host s t e s') : (s.threads t).stage ≠ .exited := by
  cases hmove with
  | enters hstage | serves hstage | closes hstage | marks hstage | exits hstage =>
      rw [hstage]
      exact fun h => by cases h

/-- No thread is running when all slots are free. -/
theorem SlotsOk.not_running (hslots : SlotsOk s) (hfree : ∀ i, (s.workers i).inUse = false)
    {t : ThreadId} : ¬ s.Running t := by
  intro ht
  have hbusy := (hslots.unjoined t ht.1 ht.2).1
  rw [hfree] at hbusy
  cases hbusy

/-- Slots of running threads are not free. -/
theorem SlotsOk.slot_ne (hslots : SlotsOk s) {i : Slot} (hfree : (s.workers i).inUse = false)
    {t : ThreadId} (ht : s.Running t) : (s.threads t).slot ≠ i := by
  rintro rfl
  have hbusy := (hslots.unjoined t ht.1 ht.2).1
  rw [hfree] at hbusy
  cases hbusy

theorem quiet_inUse (i j : Slot) : Quiet j (.read (.slot i .inUse)) :=
  quiet_read (fun _ h => by cases h) j

/-- **`wc_tcp_start_worker` keeps the discipline.** -/
theorem Disciplined.configure (hd : Disciplined h s) (hslots : SlotsOk s) (fd : Int) (conn : Nat)
    (listener : Revents) (env : StartEnv) :
    Disciplined (h ++ block .main (startActions s.workers s.nextThread env))
      (s.configure transport fd conn listener true env) := by
  unfold startActions State.configure
  rw [transport.startWorker_eq]
  unfold startWorker
  simp only [if_true]
  cases hfind : (List.finRange maxClients).find? fun i => !(s.workers i).inUse with
  | none =>
      refine hd.main_plain ?_ fun a ha t _ => ?_
      · exact ⟨rfl, fun _ => rfl, fun _ => rfl⟩
      · obtain ⟨i, -, rfl⟩ := List.mem_map.mp ha
        exact quiet_inUse i _
  | some i =>
      have hfree : (s.workers i).inUse = false := by simpa using List.find?_some hfind
      have hwrite : ∀ field t, s.Running t → Quiet (s.threads t).slot (.write (.slot i field)) :=
        fun field t ht => quiet_slot (hslots.slot_ne hfree ht) (.inr rfl)
      -- the slots that are in use are only looked at, the free one is nobody else's
      have hpre : ∀ a ∈ ((List.finRange maxClients).takeWhile fun j => (s.workers j).inUse).map
          (fun j => Action.read (Location.slot j .inUse)) ++
          [.read (.slot i .inUse), .write (.slot i .clientFd), .write (.slot i .finished),
            .write (.slot i .inUse)], ∀ t, s.Running t → Quiet (s.threads t).slot a := by
        intro a ha t ht
        simp only [List.mem_append, List.mem_map, List.mem_cons, List.not_mem_nil, or_false] at ha
        rcases ha with ⟨j, -, rfl⟩ | rfl | rfl | rfl | rfl
        · exact quiet_inUse j _
        · exact quiet_inUse i _
        all_goals exact hwrite _ t ht
      cases env.result with
      | error e =>
          refine hd.main_plain ?_ fun a ha t ht => ?_
          · exact ⟨rfl, fun _ => rfl, fun _ => rfl⟩
          · rcases List.mem_append.mp ha with ha | ha
            · exact hpre a ha t ht
            · simp only [List.mem_cons, List.not_mem_nil, or_false] at ha
              rcases ha with rfl | rfl | rfl <;> exact hwrite _ t ht
      | ok _ =>
          refine hd.start hslots hfree hpre (fun a ha j => ?_) rfl rfl
          rw [List.mem_singleton] at ha
          subst ha
          exact ⟨(fun h => by cases h), fun h => by cases h⟩

/-- **A step of the main thread keeps the discipline.** -/
theorem Disciplined.main (hd : Disciplined h s) (hs : s.Valid transport host) {e : MainEvent}
    (hstep : mainStep transport s e = some s') :
    Disciplined (h ++ block .main (mainActions s e)) s' := by
  have hpcOk := hs.pc
  have hnone : SameThreads s s' → Disciplined (h ++ block .main []) s' := fun hsame =>
    hd.main_plain hsame fun a ha => (List.not_mem_nil ha).elim
  have hall : SameThreads s s' → (∀ i, (s.workers i).inUse = false) →
      Disciplined (h ++ block .main (allLocations.map .write)) s' := fun hsame hfree =>
    hd.main_plain hsame fun a _ t ht => absurd ht (hs.slots.not_running hfree)
  have hmove := mainStep_move hstep
  cases e with
  | configure nonblockingOk env =>
      simp only [mainStep] at hstep
      split at hstep
      · next fd conn listener hpc =>
          cases hstep
          cases nonblockingOk with
          | true => exact hd.configure hs.slots fd conn listener env
          | false => exact hnone ⟨rfl, fun _ => rfl, fun _ => rfl⟩
      · cases hstep
  | listen opened =>
      cases hmove with
      | listens hpc | cannotListen hpc =>
          rw [hpc] at hpcOk
          exact hall ⟨rfl, fun _ => rfl, fun _ => rfl⟩ hpcOk
  | poll outcome => cases hmove <;> exact hnone ⟨rfl, fun _ => rfl, fun _ => rfl⟩
  | accept outcome => cases hmove <;> exact hnone ⟨rfl, fun _ => rfl, fun _ => rfl⟩
  | closeListener closed unlinked =>
      cases hmove
      exact hnone ⟨rfl, fun _ => rfl, fun _ => rfl⟩
  | tick =>
      cases hmove with
      | stops hpc | goesOn hpc | rejects hpc | checks hpc =>
          simp only [mainActions, hpc]
          exact hnone ⟨rfl, fun _ => rfl, fun _ => rfl⟩
      | finds hpc hnext | passes hpc hnext =>
          simp only [mainActions, hpc, hnext, dif_pos]
          refine hd.main_reap ?_ _
          exact ⟨rfl, fun _ => rfl, fun _ => rfl⟩
      | reaped hpc hnext | joinedAll hpc hnext =>
          simp only [mainActions, hpc, hnext, dif_neg, not_false_eq_true]
          exact hnone ⟨rfl, fun _ => rfl, fun _ => rfl⟩
      | @joins i t after hpc hexited =>
          rw [hpc] at hpcOk
          simp only [mainActions, hpc]
          exact hd.join hs.slots hpcOk.2 [] fun a ha => (List.not_mem_nil ha).elim
      | publishes hpc =>
          simp only [mainActions, hpc]
          refine hd.main_locked ?_ fun a ha t _ hdisturbs => ?_
          · exact ⟨rfl, fun _ => rfl, fun _ => rfl⟩
          · rw [List.mem_singleton] at ha
            subst ha
            cases hdisturbs
      | @joinsNext next result hpc hnext hbusy hexited =>
          simp only [mainActions, hpc, hnext, dif_pos, hbusy, if_true]
          refine hd.join hs.slots rfl [.read (.slot _ .inUse), .read (.slot _ .thread)] fun a ha j => ?_
          simp only [List.mem_cons, List.not_mem_nil, or_false] at ha
          rcases ha with rfl | rfl <;> exact quiet_read (fun _ h => by cases h) j
      | skips hpc hnext hfree =>
          simp only [mainActions, hpc, hnext, dif_pos, hfree, Bool.false_eq_true, if_false]
          refine hd.main_plain ?_ fun a ha t _ => ?_
          · exact ⟨rfl, fun _ => rfl, fun _ => rfl⟩
          · rw [List.mem_singleton] at ha
            subst ha
            exact quiet_inUse _ _
      | returns hpc =>
          rw [hpc] at hpcOk
          simp only [mainActions, hpc]
          exact hall ⟨rfl, fun _ => rfl, fun _ => rfl⟩ hpcOk

/-- **Every step keeps the discipline.** -/
theorem Disciplined.step (hd : Disciplined h s) (hs : s.Valid transport host)
    (hstep : step transport host s e = some s') : Disciplined (h ++ actions s e s') s' := by
  cases e with
  | signal =>
      cases hstep
      simp only [actions, List.append_nil]
      exact { hd with }
  | main e => exact hd.main hs hstep
  | worker t e =>
      cases step_move hstep with
      | worker ht hmove =>
          have hrunning := hs.slots.running ht hmove.not_exited
          exact hd.worker hs.slots hmove.sameThreads ⟨ht, hrunning.1⟩ e

/-- **The threaded servers have no data races**: in any run, accesses to the table of workers, to the
flag or to the mutex that conflict are ordered by the mutex, or by the creation or the join of a
thread. The memory is no exception: it is set up before, and given back behind, all that is done to
it. -/
theorem data_race_free {stopRequested : Bool} {as : History Actor Unit Location}
    (h : (transport.server host).Trace actions (.start stopRequested) as s) : as.RaceFree := by
  have hdisciplined : s.Valid transport host ∧ Disciplined as s := by
    induction h with
    | nil => exact ⟨valid_start stopRequested, disciplined_start stopRequested⟩
    | snoc _ hstep ih =>
        obtain ⟨hvalid, hd⟩ := ih
        exact ⟨(server_inductive transport host).step _ _ _ hvalid hstep, hd.step hvalid hstep⟩
  exact hdisciplined.2.free

/-- A run of a threaded server, with what is done to its table. -/
theorem server_actions (transport : Transport) (host : Host) (es : List Event)
    (test : History Actor Unit Location → State → Bool)
    (h : (StepSystem.execTrace (step transport host) actions (.start false) es).any
      (fun p => test p.1 p.2) = true) :
    ∃ as s, (transport.server host).Trace actions (.start false) as s ∧ test as s = true :=
  StepSystem.exists_trace h

/-- `workers[0].finished`. -/
def firstFinished : Location := .slot ⟨0, Nat.zero_lt_succ 63⟩ .finished

/-- Two workers, at the first of which the main thread has looked while it ran. -/
theorem data_race_free_run : ∃ as s,
    (Transport.tcp.server plainHost).Trace actions (.start false) as s ∧ s.pc = .finished (.ok ()) ∧
    (Actor.worker 0, .write firstFinished) ∈ as ∧ (Actor.main, .read firstFinished) ∈ as ∧
    RaceFree as := by
  obtain ⟨as, s, htrace, hp⟩ := server_actions .tcp plainHost twoConnections
    (fun as s => s.pc.hasReturned (.ok ()) && decide ((Actor.worker 0, .write firstFinished) ∈ as) &&
      decide ((Actor.main, .read firstFinished) ∈ as)) (by decide +kernel)
  simp only [Bool.and_eq_true, decide_eq_true_eq, hasReturned_iff] at hp
  exact ⟨as, s, htrace, hp.1.1, hp.1.2, hp.2, data_race_free htrace⟩

end WireCommand.Threaded.Server
