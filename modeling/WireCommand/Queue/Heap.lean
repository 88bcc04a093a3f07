import WireCommand.Foundation.Linked
import WireCommand.Queue

/-!
# The request queue in memory

`RawQueue` is `struct wc_request_queue` as it lies in memory: a pointer to the first node and to the
last, a length, and the nodes on the heap, linked by their `next` fields. An operation is partial,
and `none` says that it would follow a pointer to memory that is not allocated or never leave its
loop.

`Holds` ties a raw queue to the nodes it links: a list in the heap whose last node is `tail` and
whose length is `length`. The loop of `wc_request_queue_discard_client` walks it with two pointers,
and the invariant of the loop is `Cursor`: the nodes it has kept lie behind it, those it has not
seen before it.

`queue_refines` says what this comes to for any sequence of operations of the interface, including
the requests that were dequeued and the caller then owns, until it destroys them.
-/

namespace WireCommand

open Foundation

/-- `struct wc_request_queue`, with the nodes that are allocated; address 0 is `NULL`. -/
structure RawQueue where
  heap : Heap QueuedRequest
  head : Nat
  tail : Nat
  length : Nat

namespace RawQueue

/-! ## The operations -/

/-- `malloc` returns `NULL` or the address of a block that was free; `address` is what it
chooses. -/
def malloc (heap : Heap QueuedRequest) (address : Nat) : Nat :=
  if address ≤ sizeMax ∧ (heap address).isNone then address else 0

/-- `wc_request_queue_init`, whatever lay there before. -/
def init (queue : RawQueue) : RawQueue := { queue with head := 0, tail := 0, length := 0 }

/-- The end of `wc_request_queue_enqueue`: the node is filled and linked behind the last. -/
def link (queue : RawQueue) (request : Nat) (entry : QueuedRequest) : Option RawQueue :=
  if queue.tail = 0 then
    some {
      heap := queue.heap.set request ⟨entry, 0⟩
      head := request
      tail := request
      length := sizeAdd queue.length 1 }
  else do
    let last ← queue.heap.set request ⟨entry, 0⟩ queue.tail
    some {
      heap := (queue.heap.set request ⟨entry, 0⟩).set queue.tail { last with next := request }
      head := queue.head
      tail := request
      length := sizeAdd queue.length 1 }

/-- `wc_request_queue_enqueue`, for the connection `origin`. -/
def enqueue (queue : RawQueue) (clientFd type : Int) (argument : Span) (origin address : Nat) :
    Option (Except Errno Unit × RawQueue) :=
  match RequestType.ofCode type with
  | none => some (.error .einval, queue)
  | some type =>
      if clientFd < 0 ∨ (argument.isNull ∧ argument.size ≠ 0) then
        some (.error .einval, queue)
      else if argument.size > sizeMax - Queue.nodeSize then
        some (.error .eoverflow, queue)
      else if malloc queue.heap address = 0 then
        some (.error .enomem, queue)
      else do
        let queue ← queue.link (malloc queue.heap address) ⟨clientFd, type, argument.data, origin⟩
        some (.ok (), queue)

/-- `wc_request_queue_dequeue`: the node that was first. -/
def dequeue (queue : RawQueue) : Option (Except Errno Nat × RawQueue) :=
  if queue.head = 0 then
    some (.error .enoent, queue)
  else do
    let request := queue.head
    let node ← queue.heap request
    some (.ok request, {
      heap := queue.heap.set request { node with next := 0 }
      head := node.next
      tail := if node.next = 0 then 0 else queue.tail
      length := sizeSub queue.length 1 })

/-- `wc_request_queue_peek`: the first node, or `NULL`. -/
def peek (queue : RawQueue) : Nat := queue.head

/-- Takes the node at `current` out of the queue and frees it; `previous` is the node before it. -/
def unlink (queue : RawQueue) (previous current next : Nat) : Option RawQueue := do
  let queue ←
    if previous = 0 then
      some { queue with head := next }
    else do
      let node ← queue.heap previous
      some { queue with heap := queue.heap.set previous { node with next := next } }
  some { queue with
    tail := if queue.tail = current then previous else queue.tail
    heap := queue.heap.free current
    length := sizeSub queue.length 1 }

/-- The loop of `wc_request_queue_discard_client`; `none` also when the fuel runs out. -/
def discardLoop (clientFd : Int) :
    Nat → Nat → Nat → Nat → RawQueue → Option (Nat × RawQueue)
  | 0, _, _, _, _ => none
  | fuel + 1, previous, current, removed, queue =>
      if current = 0 then
        some (removed, queue)
      else do
        let node ← queue.heap current
        if node.value.clientFd = clientFd then
          let queue ← queue.unlink previous current node.next
          discardLoop clientFd fuel previous node.next (sizeAdd removed 1) queue
        else
          discardLoop clientFd fuel current node.next removed queue

/-- `wc_request_queue_discard_client`: how many requests it removed. -/
def discardClient (queue : RawQueue) (clientFd : Int) : Option (Nat × RawQueue) :=
  discardLoop clientFd (queue.length + 1) 0 queue.head 0 queue

/-- The loop of `wc_request_queue_clear`. -/
def clearLoop : Nat → Nat → Heap QueuedRequest → Option (Heap QueuedRequest)
  | 0, _, _ => none
  | fuel + 1, current, heap =>
      if current = 0 then
        some heap
      else do
        let node ← heap current
        clearLoop fuel node.next (heap.free current)

/-- `wc_request_queue_clear`. -/
def clear (queue : RawQueue) : Option RawQueue := do
  let heap ← clearLoop (queue.length + 1) queue.head queue.heap
  some ⟨heap, 0, 0, 0⟩

/-- `wc_queued_request_destroy`. -/
def destroy (queue : RawQueue) (request : Nat) : RawQueue :=
  { queue with heap := queue.heap.free request }

/-! ## A raw queue is a list -/

/-- The nodes of a queue, from its head to its tail, by address and contents. -/
abbrev Nodes := List (Nat × QueuedRequest)

/-- The queue links these nodes. -/
structure Holds (queue : RawQueue) (nodes : Nodes) : Prop where
  linked : Linked queue.heap queue.head queue.tail nodes
  length_eq : queue.length = nodes.length
  addresses : ∀ a ∈ nodes.map Prod.fst, a ≤ sizeMax

variable {queue : RawQueue} {nodes front back : Nodes}

theorem holds_init (queue : RawQueue) : Holds queue.init [] := ⟨Linked.nil, rfl, by simp⟩

/-- The length of a queue is no more than `size_t` can hold: its nodes lie in memory. -/
theorem Holds.length_le (h : Holds queue nodes) : nodes.length ≤ sizeMax :=
  h.linked.length_le h.addresses

theorem malloc_fresh {heap : Heap QueuedRequest} {address : Nat} (h : malloc heap address ≠ 0) :
    malloc heap address ≤ sizeMax ∧ heap (malloc heap address) = none := by
  unfold malloc at h ⊢
  split
  · next hfree => exact ⟨hfree.1, Option.isNone_iff_eq_none.mp hfree.2⟩
  · next hfree =>
      rw [if_neg hfree] at h
      exact absurd rfl h

/-- A node is linked behind the others, and nothing that is not the queue's changes. -/
theorem Holds.link (h : Holds queue nodes) {request : Nat} (entry : QueuedRequest)
    (hnull : request ≠ 0) (hle : request ≤ sizeMax) (hfree : queue.heap request = none) :
    ∃ queue', queue.link request entry = some queue' ∧
      Holds queue' (nodes ++ [(request, entry)]) ∧
      ∀ a, queue.heap a ≠ none → a ∉ nodes.map Prod.fst → queue'.heap a = queue.heap a := by
  have hfresh : request ∉ nodes.map Prod.fst := fun hmem =>
    h.linked.segment.allocated request hmem hfree
  have haddresses : ∀ a ∈ (nodes ++ [(request, entry)]).map Prod.fst, a ≤ sizeMax := by
    intro a ha
    simp only [List.map_append, List.map_cons, List.map_nil, List.mem_append,
      List.mem_singleton] at ha
    rcases ha with ha | rfl
    · exact h.addresses a ha
    · exact hle
  have hapart : ∀ a, queue.heap a ≠ none → a ≠ request := by
    rintro a ha rfl
    exact ha hfree
  -- the length does not wrap around, since the nodes have as many addresses
  have hlength : (nodes ++ [(request, entry)]).length ≤ sizeMax →
      sizeAdd queue.length 1 = (nodes ++ [(request, entry)]).length := by
    intro hroom
    rw [List.length_append, List.length_singleton] at hroom ⊢
    rw [h.length_eq, sizeAdd_eq hroom]
  unfold RawQueue.link
  by_cases htail : queue.tail = 0
  · obtain rfl := h.linked.tail_eq_zero.mp htail
    have hlinked := Linked.push_nil hnull (queue.heap.set_self request ⟨entry, 0⟩)
    refine ⟨_, if_pos htail, ⟨hlinked, hlength (hlinked.length_le haddresses), haddresses⟩, ?_⟩
    intro a ha _
    exact queue.heap.set_of_ne _ (hapart a ha)
  · have hne : nodes ≠ [] := fun hnil => htail (h.linked.tail_eq_zero.mpr hnil)
    obtain ⟨last, hlast, hlinked⟩ :=
      (h.linked.set hfresh ⟨entry, 0⟩).push hne hnull hfresh (queue.heap.set_self _ _)
    rw [if_neg htail, hlast]
    refine ⟨_, rfl, ⟨hlinked, hlength (hlinked.length_le haddresses), haddresses⟩, ?_⟩
    intro a ha hnode
    have hlastNode : a ≠ queue.tail := by
      rintro rfl
      exact hnode (h.linked.tail_eq ▸ lastAddress_mem hne)
    exact (Heap.set_of_ne _ _ hlastNode).trans (queue.heap.set_of_ne _ (hapart a ha))

/-- `enqueue` does to the nodes what it does to the list. -/
theorem enqueue_simulates (h : Holds queue nodes) (clientFd type : Int) (argument : Span)
    (origin address : Nat) (hargument : argument.size = argument.data.length) :
    match Queue.enqueue (nodes.map Prod.snd) clientFd type argument.data origin
        (malloc queue.heap address ≠ 0) with
    | .error e => queue.enqueue clientFd type argument origin address = some (.error e, queue)
    | .ok entries => ∃ queue' nodes',
        queue.enqueue clientFd type argument origin address = some (.ok (), queue') ∧
        Holds queue' nodes' ∧ nodes'.map Prod.snd = entries ∧
        (∃ request entry, nodes' = nodes ++ [(request, entry)] ∧ queue.heap request = none) ∧
        ∀ a, queue.heap a ≠ none → a ∉ nodes.map Prod.fst → queue'.heap a = queue.heap a := by
  have hnull : ¬ (argument.isNull = true ∧ argument.size ≠ 0) := by
    rintro ⟨hnull, hsize⟩
    cases argument with
    | null size => exact hsize hargument
    | bytes data => cases hnull
  unfold Queue.enqueue enqueue
  cases RequestType.ofCode type with
  | none => rfl
  | some type =>
      simp only [hnull, or_false]
      rw [hargument]
      by_cases hfd : clientFd < 0
      · simp only [if_pos hfd]
      simp only [if_neg hfd]
      by_cases hsize : argument.data.length > sizeMax - Queue.nodeSize
      · simp only [if_pos hsize]
      simp only [if_neg hsize]
      by_cases hmalloc : malloc queue.heap address = 0
      · simp [hmalloc]
      · simp only [ne_eq, hmalloc, not_false_eq_true, decide_true, if_true, if_false]
        obtain ⟨hle, hfree⟩ := malloc_fresh hmalloc
        obtain ⟨queue', hlink, hholds, hframe⟩ :=
          h.link ⟨clientFd, type, argument.data, origin⟩ hmalloc hle hfree
        rw [hlink]
        exact ⟨queue', _, rfl, hholds, by simp, ⟨_, _, rfl, hfree⟩, hframe⟩

/-- A `NULL` argument with a length is refused, if nothing else is wrong already. -/
theorem enqueue_null (queue : RawQueue) (clientFd type : Int) {argument : Span}
    (origin address : Nat) (hnull : argument.isNull = true ∧ argument.size ≠ 0) :
    queue.enqueue clientFd type argument origin address = some (.error .einval, queue) := by
  unfold enqueue
  cases RequestType.ofCode type with
  | none => rfl
  | some type => exact if_pos (.inr hnull)

/-- `dequeue` hands out the first node. -/
theorem dequeue_simulates {request : Nat} {entry : QueuedRequest}
    (h : Holds queue ((request, entry) :: nodes)) :
    ∃ queue', queue.dequeue = some (.ok request, queue') ∧ Holds queue' nodes ∧
      queue'.heap request = some ⟨entry, 0⟩ ∧
      ∀ a, a ≠ request → queue'.heap a = queue.heap a := by
  have hnull := h.linked.segment.ne_zero request (by simp)
  obtain ⟨hhead, next, hnode, hlinked⟩ := h.linked.pop
  have hlength : sizeSub queue.length 1 = nodes.length := by
    rw [h.length_eq, List.length_cons, sizeSub_eq (by omega)]
    rfl
  refine ⟨⟨queue.heap.set request ⟨entry, 0⟩, next, if next = 0 then 0 else queue.tail,
    sizeSub queue.length 1⟩, ?_, ⟨hlinked _, hlength, ?_⟩, queue.heap.set_self _ _, ?_⟩
  · unfold dequeue
    rw [hhead, if_neg hnull]
    simp only [hnode, Option.bind_eq_bind, Option.bind_some]
  · intro a ha
    exact h.addresses a (List.mem_cons_of_mem _ ha)
  · intro a ha
    exact queue.heap.set_of_ne _ ha

/-! ## Discarding a client -/

/-- The loop of `wc_request_queue_discard_client` stands at `current`: `front` are the nodes it has
kept, `back` those it has not seen. -/
structure Cursor (queue : RawQueue) (front back : Nodes) (current : Nat) : Prop where
  before : Segment queue.heap queue.head front current
  after : Segment queue.heap current back 0
  nodup : ((front ++ back).map Prod.fst).Nodup
  tail_eq : queue.tail = lastAddress (front ++ back)
  length_eq : queue.length = (front ++ back).length

theorem Holds.cursor (h : Holds queue nodes) : Cursor queue [] nodes queue.head :=
  ⟨rfl, h.linked.segment, h.linked.nodup, h.linked.tail_eq, h.length_eq⟩

/-- A node that is kept moves from before the cursor to behind it. -/
theorem Cursor.keep {a next : Nat} {entry : QueuedRequest}
    (h : Cursor queue front ((a, entry) :: back) a) (ha : a ≠ 0)
    (hnode : queue.heap a = some ⟨entry, next⟩) (hafter : Segment queue.heap next back 0) :
    Cursor queue (front ++ [(a, entry)]) back next := by
  have hmoved : front ++ [(a, entry)] ++ back = front ++ (a, entry) :: back := by simp
  refine ⟨segment_concat.mpr ⟨h.before, ha, hnode⟩, hafter, ?_, ?_, ?_⟩
  · rw [hmoved]
    exact h.nodup
  · rw [hmoved]
    exact h.tail_eq
  · rw [hmoved]
    exact h.length_eq

/-- A node of the client is taken out. -/
theorem Cursor.remove {a next : Nat} {entry : QueuedRequest}
    (h : Cursor queue front ((a, entry) :: back) a) (hafter : Segment queue.heap next back 0) :
    ∃ queue', queue.unlink (lastAddress front) a next = some queue' ∧
      Cursor queue' front back next ∧
      ∀ b ∉ (front ++ (a, entry) :: back).map Prod.fst, queue'.heap b = queue.heap b := by
  obtain ⟨hbefore, -, hnodup, htail, hlength⟩ := h
  have hsublist : (front ++ back).Sublist (front ++ (a, entry) :: back) :=
    (List.Sublist.refl front).append (List.sublist_cons_self _ _)
  have hnodup' : ((front ++ back).map Prod.fst).Nodup := hnodup.sublist (hsublist.map _)
  have hlength' : sizeSub queue.length 1 = (front ++ back).length := by
    rw [List.length_append, List.length_cons] at hlength
    rw [hlength, sizeSub_eq (by omega), List.length_append]
    omega
  have htail' : (if queue.tail = a then lastAddress front else queue.tail) =
      lastAddress (front ++ back) := by
    rw [htail, Linked.lastAddress_unlink hnodup]
  cases front using List.reverseRecOn with
  | nil =>
      -- the first node: the head moves on
      have hfresh : a ∉ back.map Prod.fst := (List.nodup_cons.mp hnodup).1
      refine ⟨_, rfl, ⟨rfl, hafter.free hfresh, hnodup', htail', hlength'⟩, ?_⟩
      intro b hb
      exact queue.heap.free_of_ne fun hba => hb (by simp [hba])
  | append_singleton front cell =>
      -- a node behind another: that one is linked to what follows
      obtain ⟨b, previous⟩ := cell
      obtain ⟨hprevious, hfront, hback⟩ := Linked.unlink hnodup hbefore hafter
      have hb : b ≠ 0 := (segment_concat.mp hbefore).2.1
      rw [lastAddress_concat] at htail' ⊢
      refine ⟨⟨(queue.heap.set b ⟨previous, next⟩).free a, queue.head,
        if queue.tail = a then b else queue.tail, sizeSub queue.length 1⟩, ?_,
        ⟨hfront, hback, hnodup', htail', hlength'⟩, ?_⟩
      · unfold unlink
        rw [if_neg hb, hprevious]
        rfl
      · intro c hc
        simp only [List.map_append, List.map_cons, List.map_nil, List.mem_append, List.mem_cons,
          List.not_mem_nil, or_false, not_or] at hc
        show (queue.heap.set b ⟨previous, next⟩).free a c = queue.heap c
        rw [Heap.free_of_ne _ hc.2.1, Heap.set_of_ne _ _ hc.1.2]

/-- **What the loop does from any cursor**: it removes the client's nodes before it, counts them and
keeps the others in order. -/
theorem discardLoop_spec (clientFd : Int) (fuel removed : Nat) {current : Nat}
    (h : Cursor queue front back current) (hfuel : back.length < fuel)
    (hremoved : removed + back.length ≤ sizeMax) :
    ∃ queue', discardLoop clientFd fuel (lastAddress front) current removed queue =
        some (removed + back.countP (·.2.clientFd = clientFd), queue') ∧
      Cursor queue' (front ++ back.filter (·.2.clientFd ≠ clientFd)) [] 0 ∧
      ∀ b ∉ (front ++ back).map Prod.fst, queue'.heap b = queue.heap b := by
  induction back generalizing queue front fuel current removed with
  | nil =>
      obtain ⟨fuel, rfl⟩ : ∃ n, fuel = n + 1 := ⟨fuel - 1, by simp at hfuel; omega⟩
      obtain rfl : current = 0 := h.after
      refine ⟨queue, rfl, ?_, fun _ _ => rfl⟩
      simpa using h
  | cons cell back ih =>
      obtain ⟨a, entry⟩ := cell
      obtain ⟨fuel, rfl⟩ : ∃ n, fuel = n + 1 := ⟨fuel - 1, by simp at hfuel; omega⟩
      obtain ⟨rfl, ha, next, hnode, hafter⟩ := h.after
      simp only [List.length_cons] at hfuel hremoved
      have hloop : discardLoop clientFd (fuel + 1) (lastAddress front) current removed queue =
          if entry.clientFd = clientFd then
            (queue.unlink (lastAddress front) current next).bind
              (discardLoop clientFd fuel (lastAddress front) next (sizeAdd removed 1))
          else discardLoop clientFd fuel current next removed queue := by
        simp only [discardLoop, if_neg ha, hnode, Option.bind_eq_bind, Option.bind_some]
      rw [hloop]
      by_cases hclient : entry.clientFd = clientFd
      · obtain ⟨queue₁, hunlink, hcursor, hframe₁⟩ := h.remove hafter
        obtain ⟨queue', hrest, hend, hframe⟩ := ih fuel (removed + 1) hcursor (by omega)
          (by omega)
        refine ⟨queue', ?_, ?_, ?_⟩
        · rw [if_pos hclient, hunlink, Option.bind_some, sizeAdd_eq (by omega), hrest,
            List.countP_cons_of_pos (by simpa using hclient)]
          simp only [Option.some.injEq, Prod.mk.injEq, and_true]
          omega
        · rwa [List.filter_cons_of_neg (by simpa using hclient)]
        · intro b hb
          rw [hframe b (fun hmem => hb ?_), hframe₁ b hb]
          simp only [List.map_append, List.mem_append, List.map_cons, List.mem_cons] at hmem ⊢
          rcases hmem with hmem | hmem
          · exact .inl hmem
          · exact .inr (.inr hmem)
      · obtain ⟨queue', hrest, hend, hframe⟩ := ih fuel removed (h.keep ha hnode hafter)
          (by omega) (by omega)
        rw [lastAddress_concat] at hrest
        refine ⟨queue', ?_, ?_, ?_⟩
        · rw [if_neg hclient, hrest, List.countP_cons_of_neg (by simpa using hclient)]
        · rw [List.filter_cons_of_pos (by simpa using hclient)]
          rwa [List.append_assoc, List.singleton_append] at hend
        · rwa [List.append_assoc, List.singleton_append] at hframe

/-- A finished cursor is a queue again. -/
theorem Cursor.holds (h : Cursor queue nodes [] 0)
    (haddresses : ∀ a ∈ nodes.map Prod.fst, a ≤ sizeMax) :
    Holds queue nodes := by
  obtain ⟨hbefore, -, hnodup, htail, hlength⟩ := h
  rw [List.append_nil] at hnodup htail hlength
  exact ⟨⟨hbefore, hnodup, htail⟩, hlength, haddresses⟩

/-- `discardClient` does to the nodes what it does to the list, and counts. -/
theorem discardClient_simulates (h : Holds queue nodes) (clientFd : Int) :
    ∃ queue' nodes', queue.discardClient clientFd =
        some (nodes.countP (·.2.clientFd = clientFd), queue') ∧
      Holds queue' nodes' ∧
      nodes'.map Prod.snd = Queue.discardClient (nodes.map Prod.snd) clientFd ∧
      nodes'.Sublist nodes ∧ ∀ a ∉ nodes.map Prod.fst, queue'.heap a = queue.heap a := by
  obtain ⟨queue', hloop, hcursor, hframe⟩ := discardLoop_spec clientFd (queue.length + 1) 0 h.cursor
    (by rw [h.length_eq]; omega) (by rw [Nat.zero_add]; exact h.length_le)
  have hsublist : (nodes.filter (·.2.clientFd ≠ clientFd)).Sublist nodes := List.filter_sublist
  refine ⟨queue', _, ?_, hcursor.holds ?_, ?_, hsublist, hframe⟩
  · rw [Nat.zero_add] at hloop
    exact hloop
  · intro a ha
    exact h.addresses a ((hsublist.map _).subset ha)
  · simp only [Queue.discardClient, List.nil_append, List.filter_map]
    rfl

/-! ## Clearing the queue -/

/-- The loop frees the nodes it walks over, and no others. -/
theorem clearLoop_spec {heap : Heap QueuedRequest} (fuel : Nat) {current : Nat}
    (h : Segment heap current nodes 0) (hnodup : (nodes.map Prod.fst).Nodup)
    (hfuel : nodes.length < fuel) :
    ∃ heap', clearLoop fuel current heap = some heap' ∧
      ∀ a ∉ nodes.map Prod.fst, heap' a = heap a := by
  induction nodes generalizing heap fuel current with
  | nil =>
      obtain ⟨fuel, rfl⟩ : ∃ n, fuel = n + 1 := ⟨fuel - 1, by simp at hfuel; omega⟩
      obtain rfl : current = 0 := h
      exact ⟨heap, rfl, fun _ _ => rfl⟩
  | cons cell nodes ih =>
      obtain ⟨a, entry⟩ := cell
      obtain ⟨fuel, rfl⟩ : ∃ n, fuel = n + 1 := ⟨fuel - 1, by simp at hfuel; omega⟩
      obtain ⟨rfl, ha, next, hnode, hrest⟩ := h
      simp only [List.map_cons, List.nodup_cons] at hnodup
      simp only [List.length_cons] at hfuel
      obtain ⟨heap', hloop, hframe⟩ := ih fuel (hrest.free hnodup.1) hnodup.2 (by omega)
      refine ⟨heap', ?_, ?_⟩
      · simp only [clearLoop, if_neg ha, hnode, Option.bind_eq_bind, Option.bind_some, hloop]
      · intro b hb
        simp only [List.map_cons, List.mem_cons, not_or] at hb
        rw [hframe b hb.2, heap.free_of_ne hb.1]

theorem clear_simulates (h : Holds queue nodes) :
    ∃ queue', queue.clear = some queue' ∧ Holds queue' [] ∧
      ∀ a ∉ nodes.map Prod.fst, queue'.heap a = queue.heap a := by
  obtain ⟨heap', hloop, hframe⟩ := clearLoop_spec (queue.length + 1) h.linked.segment h.linked.nodup
    (by rw [h.length_eq]; omega)
  refine ⟨⟨heap', 0, 0, 0⟩, ?_, ⟨Linked.nil, rfl, by simp⟩, hframe⟩
  simp only [clear, hloop, Option.bind_eq_bind, Option.bind_some]

/-! ## Sequences of operations -/

/-- The operations of the interface, with what the allocator chooses. -/
inductive Op where
  | init
  | enqueue (clientFd type : Int) (argument : Span) (origin address : Nat)
  | dequeue
  | peek
  | discardClient (clientFd : Int)
  | clear
  /-- The caller destroys one of the requests it was handed, or `NULL`. -/
  | destroy (index : Nat)

/-- What an operation returns; a pointer to a request is given with what it points to. -/
inductive Result where
  | done
  | status (result : Except Errno Unit)
  | request (result : Except Errno QueuedRequest)
  | borrowed (request : Option QueuedRequest)
  | removed (count : Nat)

/-- A queue, and the requests that were dequeued and not yet destroyed. -/
structure State where
  queue : RawQueue
  owned : List Nat

/-- One operation: its result, and what it leaves. -/
def State.apply (state : State) : Op → Option (Result × State)
  | .init => some (.done, { state with queue := state.queue.init })
  | .enqueue clientFd type argument origin address => do
      let (result, queue) ← state.queue.enqueue clientFd type argument origin address
      some (.status result, { state with queue := queue })
  | .dequeue => do
      match ← state.queue.dequeue with
      | (.error e, queue) => some (.request (.error e), { state with queue := queue })
      | (.ok request, queue) =>
          let node ← queue.heap request
          some (.request (.ok node.value), ⟨queue, request :: state.owned⟩)
  | .peek =>
      if state.queue.peek = 0 then
        some (.borrowed none, state)
      else do
        let node ← state.queue.heap state.queue.peek
        some (.borrowed (some node.value), state)
  | .discardClient clientFd => do
      let (removed, queue) ← state.queue.discardClient clientFd
      some (.removed removed, { state with queue := queue })
  | .clear => do
      let queue ← state.queue.clear
      some (.done, { state with queue := queue })
  | .destroy index =>
      match state.owned[index]? with
      | none => some (.done, state)
      | some request =>
          some (.done, ⟨state.queue.destroy request, state.owned.filter (· ≠ request)⟩)

/-- One operation after the other: their results, and what they leave. -/
def State.run (state : State) : List Op → Option (List Result × State)
  | [] => some ([], state)
  | op :: ops => do
      let (result, state) ← state.apply op
      let (results, state) ← state.run ops
      some (result :: results, state)

/-- The list after an operation with this result: what was enqueued stands at its end, what was
dequeued is dropped from its front. -/
def expected (entries : RequestQueue) : Op → Result → RequestQueue
  | .init, _ => []
  | .enqueue clientFd type argument origin _, .status (.ok ()) =>
      match RequestType.ofCode type with
      | none => entries
      | some type => entries ++ [⟨clientFd, type, argument.data, origin⟩]
  | .dequeue, _ => entries.drop 1
  | .discardClient clientFd, _ => entries.filter (·.clientFd ≠ clientFd)
  | .clear, _ => []
  | _, _ => entries

/-- The list after a sequence of operations with these results. -/
def expectedAll (entries : RequestQueue) : List Op → List Result → RequestQueue
  | op :: ops, result :: results => expectedAll (expected entries op result) ops results
  | _, _ => entries

/-- What an operation on a queue with these entries returns, and when it changes nothing. -/
def Behaves (entries : RequestQueue) (state : State) (op : Op) (result : Result)
    (state' : State) : Prop :=
  match op with
  | .enqueue clientFd type argument _ address => ∃ status, result = .status status ∧
      (status = .ok () ↔ (∃ t, RequestType.ofCode type = some t) ∧ 0 ≤ clientFd ∧
        (argument.isNull → argument.size = 0) ∧ argument.size ≤ sizeMax - Queue.nodeSize ∧
        malloc state.queue.heap address ≠ 0) ∧
      ∀ e, status = .error e → state' = state
  | .dequeue =>
      match entries with
      | [] => result = .request (.error .enoent) ∧ state' = state
      | first :: _ => result = .request (.ok first)
  | .peek => result = .borrowed entries.head? ∧ state' = state
  | .discardClient clientFd =>
      result = .removed (entries.filter (·.clientFd = clientFd)).length
  | .init | .clear | .destroy _ => result = .done

/-- The queue links these nodes, and the requests that were handed out are none of them. -/
structure State.Holds (state : State) (nodes : Nodes) : Prop where
  queue : state.queue.Holds nodes
  apart : ∀ a ∈ state.owned, a ∉ nodes.map Prod.fst
  allocated : ∀ a ∈ state.owned, state.queue.heap a ≠ none

/-- The operation runs, leaves the list it should, and returns what it should. -/
def Performs (state : State) (nodes : Nodes) (op : Op) : Prop :=
  ∃ result state' nodes', state.apply op = some (result, state') ∧ state'.Holds nodes' ∧
    nodes'.map Prod.snd = expected (nodes.map Prod.snd) op result ∧
    Behaves (nodes.map Prod.snd) state op result state'

variable {state : State}

/-- What the caller owns stays its own when the queue leaves it alone. -/
theorem State.Holds.frame (h : state.Holds nodes) {queue' : RawQueue} {nodes' : Nodes}
    (hqueue : queue'.Holds nodes') (hapart : ∀ a ∈ state.owned, a ∉ nodes'.map Prod.fst)
    (hframe : ∀ a ∈ state.owned, queue'.heap a = state.queue.heap a) :
    State.Holds ⟨queue', state.owned⟩ nodes' := by
  refine ⟨hqueue, hapart, ?_⟩
  intro a ha
  show queue'.heap a ≠ none
  rw [hframe a ha]
  exact h.allocated a ha

theorem performs_init (h : state.Holds nodes) : Performs state nodes .init := by
  refine ⟨.done, _, [], rfl, ?_, rfl, rfl⟩
  exact h.frame (holds_init _) (by simp) fun _ _ => rfl

theorem performs_enqueue (h : state.Holds nodes) (clientFd type : Int) (argument : Span)
    (origin address : Nat) :
    Performs state nodes (.enqueue clientFd type argument origin address) := by
  by_cases hnull : argument.isNull = true ∧ argument.size ≠ 0
  · -- `NULL` with a length is refused
    refine ⟨.status (.error .einval), state, nodes, ?_, h, rfl, _, rfl, ?_, fun _ _ => rfl⟩
    · simp only [State.apply, enqueue_null _ clientFd type origin address hnull,
        Option.bind_eq_bind, Option.bind_some]
    · simp only [reduceCtorEq, false_iff]
      rintro ⟨-, -, hsize, -⟩
      exact hnull.2 (hsize hnull.1)
  have hargument : argument.size = argument.data.length := by
    cases argument with
    | null size => simpa [Span.isNull, Span.data] using hnull
    | bytes data => rfl
  have henqueue := enqueue_simulates h.queue clientFd type argument origin address hargument
  have haccepts := Queue.enqueue_accepts (nodes.map Prod.snd) clientFd type argument.data origin
    (malloc state.queue.heap address ≠ 0)
  simp only [not_and, ne_eq, not_not] at hnull
  cases hlist : Queue.enqueue (nodes.map Prod.snd) clientFd type argument.data origin
      (malloc state.queue.heap address ≠ 0) with
  | error e =>
      simp only [hlist] at henqueue haccepts
      refine ⟨.status (.error e), state, nodes, ?_, h, rfl, _, rfl, ?_, fun _ _ => rfl⟩
      · simp only [State.apply, henqueue, Option.bind_eq_bind, Option.bind_some]
      · simp only [reduceCtorEq, false_iff, exists_false, decide_eq_true_eq] at haccepts ⊢
        rintro ⟨htype, hfd, -, hsize, hmalloc⟩
        exact haccepts ⟨htype, hfd, hargument ▸ hsize, hmalloc⟩
  | ok entries =>
      simp only [hlist] at henqueue haccepts
      obtain ⟨queue', nodes', hraw, hholds, hentries, ⟨request, entry, rfl, hfree⟩, hframe⟩ :=
        henqueue
      refine ⟨.status (.ok ()), ⟨queue', state.owned⟩, nodes ++ [(request, entry)], ?_, ?_, ?_,
        .ok (), rfl, ?_, by simp⟩
      · simp only [State.apply, hraw, Option.bind_eq_bind, Option.bind_some]
      · refine h.frame hholds ?_ fun a ha => hframe a (h.allocated a ha) (h.apart a ha)
        intro a ha hmem
        simp only [List.map_append, List.map_cons, List.map_nil, List.mem_append,
          List.mem_singleton] at hmem
        rcases hmem with hmem | rfl
        · exact h.apart a ha hmem
        · exact h.allocated a ha hfree
      · obtain ⟨t, rfl, -, rfl⟩ := Queue.enqueue_ok hlist
        rw [hentries]
        simp only [expected, RequestType.ofCode_code]
      · obtain ⟨htype, hfd, hsize, hmalloc⟩ := haccepts.mp ⟨entries, rfl⟩
        simp only [true_iff]
        exact ⟨htype, hfd, hnull, hargument ▸ hsize, by simpa using hmalloc⟩

theorem performs_dequeue (h : state.Holds nodes) : Performs state nodes .dequeue := by
  cases nodes with
  | nil =>
      have hhead : state.queue.head = 0 := h.queue.linked.head_eq_zero.mpr rfl
      refine ⟨.request (.error .enoent), state, [], ?_, h, rfl, rfl, rfl⟩
      simp only [State.apply, dequeue, if_pos hhead, Option.bind_eq_bind, Option.bind_some]
  | cons node nodes =>
      obtain ⟨request, entry⟩ := node
      obtain ⟨queue', hraw, hholds, hnode, hframe⟩ := dequeue_simulates h.queue
      refine ⟨.request (.ok entry), ⟨queue', request :: state.owned⟩, nodes, ?_,
        ⟨hholds, ?_, ?_⟩, rfl, rfl⟩
      · simp only [State.apply, hraw, hnode, Option.bind_eq_bind, Option.bind_some]
      · have hnodup := h.queue.linked.nodup
        simp only [List.map_cons, List.nodup_cons] at hnodup
        intro a ha
        rcases List.mem_cons.mp ha with rfl | ha
        · exact hnodup.1
        · exact fun hmem => h.apart a ha (List.mem_cons_of_mem _ hmem)
      · intro a ha
        by_cases heq : a = request
        · simp [heq, hnode]
        · rcases List.mem_cons.mp ha with rfl | ha
          · exact absurd rfl heq
          · show queue'.heap a ≠ none
            rw [hframe a heq]
            exact h.allocated a ha

theorem performs_peek (h : state.Holds nodes) : Performs state nodes .peek := by
  refine ⟨.borrowed (nodes.map Prod.snd).head?, state, nodes, ?_, h, rfl, rfl, rfl⟩
  cases nodes with
  | nil =>
      have hhead : state.queue.head = 0 := h.queue.linked.head_eq_zero.mpr rfl
      unfold State.apply
      exact if_pos hhead
  | cons node nodes =>
      obtain ⟨request, entry⟩ := node
      obtain ⟨hhead, hnull, next, hnode, -⟩ := h.queue.linked.segment
      simp only [State.apply, peek, hhead, if_neg hnull, hnode, Option.bind_eq_bind,
        Option.bind_some, List.map_cons, List.head?_cons]

theorem performs_discardClient (h : state.Holds nodes) (clientFd : Int) :
    Performs state nodes (.discardClient clientFd) := by
  obtain ⟨queue', nodes', hraw, hholds, hentries, hsublist, hframe⟩ :=
    discardClient_simulates h.queue clientFd
  refine ⟨.removed (nodes.countP (·.2.clientFd = clientFd)), ⟨queue', state.owned⟩, nodes', ?_, ?_,
    hentries, ?_⟩
  · simp only [State.apply, hraw, Option.bind_eq_bind, Option.bind_some]
  · refine h.frame hholds ?_ fun a ha => hframe a (h.apart a ha)
    exact fun a ha hmem => h.apart a ha ((hsublist.map _).subset hmem)
  · show Result.removed _ = .removed _
    rw [← List.countP_eq_length_filter, List.countP_map]
    rfl

theorem performs_clear (h : state.Holds nodes) : Performs state nodes .clear := by
  obtain ⟨queue', hraw, hholds, hframe⟩ := clear_simulates h.queue
  refine ⟨.done, ⟨queue', state.owned⟩, [], ?_, ?_, rfl, rfl⟩
  · simp only [State.apply, hraw, Option.bind_eq_bind, Option.bind_some]
  · exact h.frame hholds (by simp) fun a ha => hframe a (h.apart a ha)

theorem performs_destroy (h : state.Holds nodes) (index : Nat) :
    Performs state nodes (.destroy index) := by
  cases hrequest : state.owned[index]? with
  | none =>
      refine ⟨.done, state, nodes, ?_, h, rfl, rfl⟩
      simp only [State.apply, hrequest]
  | some request =>
      have howned : request ∈ state.owned := List.mem_of_getElem? hrequest
      refine ⟨.done, ⟨state.queue.destroy request, state.owned.filter (· ≠ request)⟩, nodes, ?_,
        ⟨⟨?_, h.queue.length_eq, h.queue.addresses⟩, ?_, ?_⟩, rfl, rfl⟩
      · simp only [State.apply, hrequest]
      · exact ⟨h.queue.linked.segment.free (h.apart request howned), h.queue.linked.nodup,
          h.queue.linked.tail_eq⟩
      · intro a ha
        exact h.apart a (List.mem_of_mem_filter ha)
      · intro a ha
        simp only [List.mem_filter, decide_eq_true_eq] at ha
        show state.queue.heap.free request a ≠ none
        rw [Heap.free_of_ne _ ha.2]
        exact h.allocated a ha.1

/-- **What one operation does.** -/
theorem apply_spec (h : state.Holds nodes) (op : Op) : Performs state nodes op := by
  cases op with
  | init => exact performs_init h
  | enqueue clientFd type argument origin address =>
      exact performs_enqueue h clientFd type argument origin address
  | dequeue => exact performs_dequeue h
  | peek => exact performs_peek h
  | discardClient clientFd => exact performs_discardClient h clientFd
  | clear => exact performs_clear h
  | destroy index => exact performs_destroy h index

/-- What any sequence of operations does. -/
theorem run_spec (h : state.Holds nodes) (ops : List Op) :
    ∃ results state' nodes', state.run ops = some (results, state') ∧
      results.length = ops.length ∧ state'.Holds nodes' ∧
      nodes'.map Prod.snd = expectedAll (nodes.map Prod.snd) ops results := by
  induction ops generalizing state nodes with
  | nil => exact ⟨[], state, nodes, rfl, rfl, h, rfl⟩
  | cons op ops ih =>
      obtain ⟨result, state₁, nodes₁, hop, h₁, hentries₁, -⟩ := apply_spec h op
      obtain ⟨results, state', nodes', hops, hlength, h', hentries⟩ := ih h₁
      refine ⟨result :: results, state', nodes', ?_, by simp [hlength], h', ?_⟩
      · simp only [State.run, hop, hops, Option.bind_eq_bind, Option.bind_some]
      · rw [hentries, hentries₁]
        rfl

/-- **The request queue refines a list.** Any sequence of operations on a queue that was initialised
runs without following a pointer to memory that is not allocated, whatever the allocator does. It
leaves a chain of distinct nodes from `head` to `tail`, as many as `length` says, that holds the
list the operations make; and from there every further operation returns what it should. -/
theorem queue_refines (queue : RawQueue) (ops : List Op) :
    ∃ results state, (⟨queue.init, []⟩ : State).run ops = some (results, state) ∧
      results.length = ops.length ∧
      ∃ nodes : Nodes, Segment state.queue.heap state.queue.head nodes 0 ∧
        (nodes.map Prod.fst).Nodup ∧ state.queue.tail = lastAddress nodes ∧
        (state.queue.head = 0 ↔ nodes = []) ∧ (state.queue.tail = 0 ↔ nodes = []) ∧
        state.queue.length = nodes.length ∧
        nodes.map Prod.snd = expectedAll [] ops results ∧
        ∀ op, ∃ result state', state.apply op = some (result, state') ∧
          Behaves (nodes.map Prod.snd) state op result state' := by
  have hinit : State.Holds ⟨queue.init, []⟩ [] := ⟨holds_init queue, by simp, by simp⟩
  obtain ⟨results, state, nodes, hrun, hlength, h, hentries⟩ := run_spec hinit ops
  have hlinked := h.queue.linked
  refine ⟨results, state, hrun, hlength, nodes, hlinked.segment, hlinked.nodup, hlinked.tail_eq,
    hlinked.head_eq_zero, hlinked.tail_eq_zero, h.queue.length_eq, hentries, ?_⟩
  intro op
  obtain ⟨result, state', -, hop, -, -, hbehaves⟩ := apply_spec h op
  exact ⟨result, state', hop, hbehaves⟩

end RawQueue

end WireCommand
