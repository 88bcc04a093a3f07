import WireCommand.Protocol

/-!
# The request queue

`struct wc_request_queue` as the list of its nodes. A queued request owns a copy of its argument.
Besides what the program stores, an entry carries a ghost: the connection it was parsed from. The
program knows a client only by its descriptor, and descriptors are reused.
-/

namespace WireCommand

/-- `struct wc_queued_request`; `origin` is a ghost. -/
structure QueuedRequest where
  clientFd : Int
  type : RequestType
  argument : Bytes
  origin : Nat
  deriving DecidableEq

/-- `struct wc_request_queue`, from its head to its tail. -/
abbrev RequestQueue := List QueuedRequest

namespace Queue

/-- `sizeof(struct wc_queued_request)`. -/
def nodeSize : Nat := 24

/-- `wc_request_queue_enqueue` with a non-NULL argument, for the connection `origin`. -/
def enqueue (queue : RequestQueue) (clientFd : Int) (type : Int) (argument : Bytes)
    (origin : Nat) (mallocOk : Bool) : Except Errno RequestQueue :=
  match RequestType.ofCode type with
  | none => .error .einval
  | some type =>
      if clientFd < 0 then
        .error .einval
      else if argument.length > sizeMax - nodeSize then
        .error .eoverflow
      else if mallocOk then
        .ok (queue ++ [⟨clientFd, type, argument, origin⟩])
      else
        .error .enomem

/-- `wc_request_queue_dequeue`: the head request, and what is left. -/
def dequeue : RequestQueue → Except Errno (QueuedRequest × RequestQueue)
  | [] => .error .enoent
  | first :: rest => .ok (first, rest)

/-- `wc_request_queue_peek`. -/
def peek (queue : RequestQueue) : Option QueuedRequest := queue.head?

/-- `wc_request_queue_discard_client`: what is left. -/
def discardClient (queue : RequestQueue) (clientFd : Int) : RequestQueue :=
  queue.filter (·.clientFd ≠ clientFd)

/-- `wc_request_queue_clear`. -/
def clear (_queue : RequestQueue) : RequestQueue := []

/-- The requests of one client, in order. -/
def ofClient (queue : RequestQueue) (clientFd : Int) : RequestQueue :=
  queue.filter (·.clientFd = clientFd)

/-! ## What the operations do -/

theorem enqueue_ok {queue queue' : RequestQueue} {clientFd type : Int} {argument : Bytes}
    {origin : Nat} {mallocOk : Bool}
    (h : enqueue queue clientFd type argument origin mallocOk = .ok queue') :
    ∃ t : RequestType, (t.code : Int) = type ∧ 0 ≤ clientFd ∧
      queue' = queue ++ [⟨clientFd, t, argument, origin⟩] := by
  unfold enqueue at h
  split at h
  · cases h
  · next t htype =>
      split at h
      · cases h
      · next hfd =>
          split at h
          · cases h
          · split at h
            · cases h
              exact ⟨t, (RequestType.code_of_ofCode htype).symm, by omega, rfl⟩
            · cases h

/-- A request of a valid client is queued, if the allocator helps. -/
theorem enqueue_of_valid {queue : RequestQueue} {clientFd : Int} {type : RequestType}
    {argument : Bytes} {origin : Nat} {mallocOk : Bool} (hfd : 0 ≤ clientFd)
    (hargument : argument.length ≤ sizeMax - nodeSize) :
    enqueue queue clientFd type.code argument origin mallocOk =
      if mallocOk then .ok (queue ++ [⟨clientFd, type, argument, origin⟩]) else .error .enomem := by
  simp only [enqueue, RequestType.ofCode_code]
  rw [if_neg (by omega), if_neg (by omega)]

/-- When a request is queued. -/
theorem enqueue_accepts (queue : RequestQueue) (clientFd type : Int) (argument : Bytes)
    (origin : Nat) (mallocOk : Bool) :
    (∃ queue', enqueue queue clientFd type argument origin mallocOk = .ok queue') ↔
      (∃ t, RequestType.ofCode type = some t) ∧ 0 ≤ clientFd ∧
        argument.length ≤ sizeMax - nodeSize ∧ mallocOk = true := by
  unfold enqueue
  cases RequestType.ofCode type with
  | none => simp
  | some t =>
      by_cases hfd : clientFd < 0
      · simp [hfd, Int.not_le.mpr hfd]
      by_cases hsize : argument.length > sizeMax - nodeSize
      · simp [hfd, hsize, Nat.not_le.mpr hsize]
      · cases mallocOk <;> simp [hfd, hsize, Int.not_lt.mp hfd, Nat.not_lt.mp hsize]

@[simp] theorem peek_cons (first : QueuedRequest) (rest : RequestQueue) :
    peek (first :: rest) = some first := rfl

@[simp] theorem ofClient_append (queue queue' : RequestQueue) (clientFd : Int) :
    ofClient (queue ++ queue') clientFd = ofClient queue clientFd ++ ofClient queue' clientFd :=
  List.filter_append ..

theorem mem_discardClient {queue : RequestQueue} {clientFd : Int} {entry : QueuedRequest} :
    entry ∈ discardClient queue clientFd ↔ entry ∈ queue ∧ entry.clientFd ≠ clientFd := by
  simp [discardClient]

/-- Discarding a client leaves the others alone. -/
theorem ofClient_discardClient_of_ne {queue : RequestQueue} {clientFd other : Int}
    (h : other ≠ clientFd) :
    ofClient (discardClient queue clientFd) other = ofClient queue other := by
  simp only [ofClient, discardClient, List.filter_filter]
  apply List.filter_congr
  intro entry _
  by_cases hentry : entry.clientFd = other
  · simp [hentry, h]
  · simp [hentry]

theorem discardClient_length_le (queue : RequestQueue) (clientFd : Int) :
    (discardClient queue clientFd).length ≤ queue.length := List.length_filter_le ..

end Queue

end WireCommand
