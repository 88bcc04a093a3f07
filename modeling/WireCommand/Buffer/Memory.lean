import WireCommand.Foundation.Block
import WireCommand.Buffer

/-!
# The bounded buffer in memory

`RawBuffer` is `struct wc_buffer` as it lies in memory: a pointer to an allocation, and three sizes
that nothing keeps in step but the code. Its operations are partial, and `none` says that a byte
outside the allocation would be touched, a `NULL` pointer followed, or the growth loop never left.

`Represents` ties a raw buffer to a `Buffer`, whose fields are the invariant. Every operation of the
one simulates the operation of the other (`append_simulates`, `consume_simulates`,
`setLength_simulates`), so what is proved of buffers holds in memory. `buffer_refines` says what
that comes to for any sequence of operations.
-/

namespace WireCommand

open Foundation

/-- `struct wc_buffer`; the allocation holds `capacity` bytes, of which the first `length` count. -/
structure RawBuffer where
  data : Option Bytes
  length : Nat
  capacity : Nat
  maxSize : Nat
  deriving DecidableEq

/-- What `realloc` returns: `NULL`, or an allocation whose new bytes hold anything. -/
abbrev Realloc := Option (Nat → UInt8)

namespace RawBuffer

/-- The allocation; there is none behind a `NULL` pointer. -/
def block (buffer : RawBuffer) : Bytes := buffer.data.getD []

/-- The bytes that count. -/
def contents (buffer : RawBuffer) : Bytes := buffer.block.take buffer.length

/-! ## The operations -/

/-- `wc_buffer_grow`. -/
def grow (buffer : RawBuffer) (required : Nat) (realloc : Realloc) :
    Option (Except Errno Unit × RawBuffer) :=
  if required ≤ buffer.capacity then
    some (.ok (), buffer)
  else do
    let newCapacity ← Buffer.growCapacity buffer.capacity buffer.maxSize required
    match realloc with
    | none => some (.error .enomem, buffer)
    | some fresh =>
        some (.ok (), { buffer with
          data := some (Block.resize buffer.block newCapacity fresh)
          capacity := newCapacity })

/-- `wc_buffer_init`. -/
def init (maxSize : Nat) : RawBuffer where
  data := none
  length := 0
  capacity := 0
  maxSize := maxSize

/-- `wc_buffer_append` of non-NULL bytes. -/
def append (buffer : RawBuffer) (bytes : Bytes) (realloc : Realloc) :
    Option (Except Errno Unit × RawBuffer) :=
  if bytes.length > sizeSub buffer.maxSize buffer.length then
    some (.error .emsgsize, buffer)
  else if bytes.length = 0 then
    some (.ok (), buffer)
  else do
    match ← buffer.grow (sizeAdd buffer.length bytes.length) realloc with
    | (.error e, buffer) => some (.error e, buffer)
    | (.ok (), buffer) =>
        let block ← buffer.data
        let block ← Block.write block buffer.length bytes
        some (.ok (), { buffer with
          data := some block
          length := sizeAdd buffer.length bytes.length })

/-- `wc_buffer_consume`. -/
def consume (buffer : RawBuffer) (size : Nat) : Option (Except Errno Unit × RawBuffer) :=
  if size > buffer.length then
    some (.error .einval, buffer)
  else if size = 0 then
    some (.ok (), buffer)
  else do
    let remaining := sizeSub buffer.length size
    let block ← buffer.data
    let block ← Block.move block 0 size remaining
    some (.ok (), { buffer with data := some block, length := remaining })

/-- `wc_buffer_destroy`. -/
def destroy (_buffer : RawBuffer) : RawBuffer where
  data := none
  length := 0
  capacity := 0
  maxSize := 0

/-- The encoders' rollback, `output->length = original_length`. -/
def setLength (buffer : RawBuffer) (length : Nat) : RawBuffer := { buffer with length := length }

/-- The end of both encoders. -/
def appendFrame (output : RawBuffer) (header body : Bytes) (headerRealloc bodyRealloc : Realloc) :
    Option (Except Errno Unit × RawBuffer) := do
  let originalLength := output.length
  match ← output.append header headerRealloc with
  | (.error e, output) => some (.error e, output)
  | (.ok (), output) =>
      match ← output.append body bodyRealloc with
      | (.error e, output) => some (.error e, output.setLength originalLength)
      | (.ok (), output) => some (.ok (), output)

/-! ## A raw buffer is a buffer -/

/-- The raw buffer lies in memory as the buffer says. -/
structure Represents (raw : RawBuffer) (buffer : Buffer) : Prop where
  block : raw.block.length = raw.capacity
  contents : raw.contents = buffer.data
  length : raw.length = buffer.length
  capacity : raw.capacity = buffer.capacity
  maxSize : raw.maxSize = buffer.maxSize

variable {raw raw' : RawBuffer} {buffer buffer' : Buffer}

theorem represents_init (maxSize : Nat) (h : maxSize ≤ sizeMax) :
    Represents (init maxSize) (.init maxSize h) := ⟨rfl, rfl, rfl, rfl, rfl⟩

theorem represents_destroy : Represents raw.destroy buffer.destroy := ⟨rfl, rfl, rfl, rfl, rfl⟩

/-- A buffer that has room for something has an allocation. -/
theorem Represents.data_eq (h : Represents raw buffer) (hpos : 0 < raw.capacity) :
    raw.data = some raw.block := by
  have hblock := h.block
  unfold RawBuffer.block at hblock ⊢
  cases hdata : raw.data with
  | none =>
      rw [hdata] at hblock
      simp only [Option.getD_none, List.length_nil] at hblock
      omega
  | some block => rfl

/-- `wc_buffer_grow` makes room, or leaves everything as it was. -/
theorem grow_simulates (h : Represents raw buffer) {required : Nat}
    (hreq : required ≤ buffer.maxSize) (realloc : Realloc) :
    match buffer.grow required hreq realloc.isSome with
    | .ok grown => ∃ raw', raw.grow required realloc = some (.ok (), raw') ∧
        Represents raw' grown.val
    | .error e => raw.grow required realloc = some (.error e, raw) := by
  unfold Buffer.grow grow
  rw [h.capacity, h.maxSize]
  by_cases hroom : required ≤ buffer.capacity
  · rw [dif_pos hroom, if_pos hroom]
    exact ⟨raw, rfl, h⟩
  · obtain ⟨newCapacity, hcapacity, hge, -⟩ := Buffer.growCapacity_spec buffer.capacity_le
      buffer.maxSize_le (Nat.lt_of_not_le hroom) hreq
    rw [dif_neg hroom, if_neg hroom]
    simp only [hcapacity, Option.get_some]
    cases realloc with
    | none => rfl
    | some fresh =>
        refine ⟨_, rfl, ?_⟩
        -- the bytes that count are in the part that `realloc` keeps
        have hlength : raw.length ≤ buffer.capacity := h.length ▸ buffer.length_le
        have hcontents : (Block.resize raw.block newCapacity fresh).take raw.length =
            buffer.data := by
          rw [← h.contents, contents, Block.take_resize]
          · rw [h.block, h.capacity]
            exact hlength
          · omega
        exact ⟨Block.length_resize _ _ _, hcontents, h.length, rfl, rfl⟩

/-- **`wc_buffer_append` in memory is `append`.** -/
theorem append_simulates (h : Represents raw buffer) (bytes : Bytes) (realloc : Realloc) :
    match buffer.append bytes realloc.isSome with
    | .ok buffer' => ∃ raw', raw.append bytes realloc = some (.ok (), raw') ∧
        Represents raw' buffer'
    | .error e => raw.append bytes realloc = some (.error e, raw) := by
  unfold Buffer.append append
  rw [h.maxSize, h.length]
  by_cases hsize : bytes.length > sizeSub buffer.maxSize buffer.length
  · rw [dif_pos hsize, if_pos hsize]
  rw [dif_neg hsize, if_neg hsize]
  by_cases hzero : bytes.length = 0
  · rw [if_pos hzero, if_pos hzero]
    exact ⟨raw, rfl, h⟩
  rw [if_neg hzero, if_neg hzero]
  obtain ⟨hsum, hfit⟩ := Buffer.sizeAdd_length hsize
  have hreq : sizeAdd buffer.length bytes.length ≤ buffer.maxSize := by rw [hsum]; exact hfit
  have hgrow := grow_simulates h hreq realloc
  simp only
  cases hgrown : buffer.grow (sizeAdd buffer.length bytes.length) hreq realloc.isSome with
  | error e =>
      simp only [hgrown] at hgrow ⊢
      rw [hgrow]
      rfl
  | ok grown =>
      simp only [hgrown] at hgrow ⊢
      obtain ⟨raw₁, hraw, h₁⟩ := hgrow
      obtain ⟨hroom, hdata, hmax⟩ := grown.property
      -- the block has room behind the bytes that count, and there the new ones are copied
      have hlength : raw₁.length = buffer.length := by
        rw [h₁.length, Buffer.length, hdata]
        rfl
      have hcapacity : raw₁.length + bytes.length ≤ raw₁.block.length := by
        rw [hlength, h₁.block, h₁.capacity, ← hsum]
        exact hroom
      obtain ⟨block, hwrite, hblock, htake⟩ := Block.write_of_le raw₁.block raw₁.length bytes hcapacity
      have hsome : raw₁.data = some raw₁.block := by
        apply h₁.data_eq
        rw [← h₁.block]
        omega
      have hsum₁ : sizeAdd raw₁.length bytes.length = raw₁.length + bytes.length := by
        rw [hlength, hsum]
      rw [hraw]
      simp only [Option.bind_eq_bind, Option.bind_some, hsome, hwrite, hsum₁]
      refine ⟨_, rfl, ?_⟩
      refine ⟨hblock.trans h₁.block, ?_, ?_, h₁.capacity, h₁.maxSize⟩
      · show block.take (raw₁.length + bytes.length) = grown.val.data ++ bytes
        rw [htake, ← h₁.contents]
        rfl
      · show raw₁.length + bytes.length = (grown.val.data ++ bytes).length
        rw [List.length_append, h₁.length]
        rfl

/-- **`wc_buffer_consume` in memory is `consume`.** -/
theorem consume_simulates (h : Represents raw buffer) (size : Nat) :
    match buffer.consume size with
    | .ok buffer' => ∃ raw', raw.consume size = some (.ok (), raw') ∧ Represents raw' buffer'
    | .error e => raw.consume size = some (.error e, raw) := by
  unfold Buffer.consume consume
  rw [h.length]
  by_cases hsize : size > buffer.length
  · rw [if_pos hsize, if_pos hsize]
  rw [if_neg hsize, if_neg hsize]
  by_cases hzero : size = 0
  · rw [if_pos hzero, if_pos hzero]
    exact ⟨raw, rfl, h⟩
  rw [if_neg hzero, if_neg hzero]
  have hlength : buffer.length ≤ raw.block.length := by
    rw [h.block, h.capacity]
    exact buffer.length_le
  have hsub : sizeSub buffer.length size = buffer.length - size :=
    sizeSub_eq (Nat.le_of_not_lt hsize)
  obtain ⟨block, hmove, hblock, htake⟩ :=
    Block.move_of_le raw.block size (buffer.length - size) (by omega)
  have hsome : raw.data = some raw.block := by
    apply h.data_eq
    rw [← h.block]
    omega
  simp only [Option.bind_eq_bind, Option.bind_some, hsome, hsub, hmove]
  refine ⟨_, rfl, ?_⟩
  refine ⟨hblock.trans h.block, ?_, ?_, h.capacity, h.maxSize⟩
  · show block.take (buffer.length - size) = buffer.data.drop size
    rw [htake, ← h.contents, contents, h.length, List.drop_take]
  · show buffer.length - size = (buffer.data.drop size).length
    rw [List.length_drop]
    rfl

/-- **Taking back a header in memory is `truncate`**: the bytes behind the old length stay where
they are and do not count any more. -/
theorem setLength_simulates (h : Represents raw buffer) {length : Nat}
    (hle : length ≤ buffer.length) : Represents (raw.setLength length) (buffer.truncate length) := by
  refine ⟨h.block, ?_, ?_, h.capacity, h.maxSize⟩
  · show raw.block.take length = buffer.data.take length
    rw [← h.contents, contents, List.take_take, h.length, Nat.min_eq_left hle]
  · show length = (buffer.data.take length).length
    rw [List.length_take]
    exact (Nat.min_eq_left hle).symm

/-- The end of the encoders in memory. -/
theorem appendFrame_simulates (h : Represents raw buffer) (header body : Bytes)
    (headerRealloc bodyRealloc : Realloc) :
    ∃ raw', raw.appendFrame header body headerRealloc bodyRealloc =
        some ((buffer.appendFrame header body headerRealloc.isSome bodyRealloc.isSome).1, raw') ∧
      Represents raw' (buffer.appendFrame header body headerRealloc.isSome bodyRealloc.isSome).2 := by
  unfold appendFrame Buffer.appendFrame
  have hheader := append_simulates h header headerRealloc
  cases hfirst : buffer.append header headerRealloc.isSome with
  | error e =>
      simp only [hfirst] at hheader ⊢
      exact ⟨raw, by rw [hheader]; rfl, h⟩
  | ok buffer₁ =>
      simp only [hfirst] at hheader ⊢
      obtain ⟨raw₁, hraw₁, h₁⟩ := hheader
      have hbody := append_simulates h₁ body bodyRealloc
      cases hsecond : buffer₁.append body bodyRealloc.isSome with
      | error e =>
          simp only [hsecond] at hbody ⊢
          refine ⟨raw₁.setLength raw.length, ?_, ?_⟩
          · simp only [hraw₁, hbody, Option.bind_eq_bind, Option.bind_some]
          rw [h.length]
          apply setLength_simulates h₁
          obtain ⟨hdata, -, -⟩ := Buffer.append_ok hfirst
          rw [Buffer.length, Buffer.length, hdata, List.length_append]
          omega
      | ok buffer₂ =>
          simp only [hsecond] at hbody ⊢
          obtain ⟨raw₂, hraw₂, h₂⟩ := hbody
          refine ⟨raw₂, ?_, h₂⟩
          simp only [hraw₁, hraw₂, Option.bind_eq_bind, Option.bind_some]

/-! ## Sequences of operations -/

/-- The operations on a buffer, with what the allocator does. -/
inductive Op where
  | append (bytes : Bytes) (realloc : Realloc)
  | consume (size : Nat)
  | destroy

/-- One operation: its result, and the buffer it leaves. -/
def apply (buffer : RawBuffer) : Op → Option (Except Errno Unit × RawBuffer)
  | .append bytes realloc => buffer.append bytes realloc
  | .consume size => buffer.consume size
  | .destroy => some (.ok (), buffer.destroy)

/-- One operation after the other: their results, and the buffer they leave. -/
def run (buffer : RawBuffer) : List Op → Option (List (Except Errno Unit) × RawBuffer)
  | [] => some ([], buffer)
  | op :: ops => do
      let (result, buffer) ← buffer.apply op
      let (results, buffer) ← buffer.run ops
      some (result :: results, buffer)

/-- A plain account of a buffer: what was appended to it, how much of that was consumed, and what it
may hold at most. -/
structure Account where
  appended : Bytes
  consumed : Nat
  limit : Nat

/-- An operation that succeeded is entered into the account; `destroy` closes it. -/
def Account.enter (account : Account) : Op → Except Errno Unit → Account
  | .append bytes _, .ok () => { account with appended := account.appended ++ bytes }
  | .consume size, .ok () => { account with consumed := account.consumed + size }
  | .destroy, _ => ⟨[], 0, 0⟩
  | _, .error _ => account

/-- The account of a sequence of operations with these results. -/
def Account.enterAll (account : Account) : List Op → List (Except Errno Unit) → Account
  | op :: ops, result :: results => (account.enter op result).enterAll ops results
  | _, _ => account

/-- The bytes an account says are there. -/
def Account.balance (account : Account) : Bytes := account.appended.drop account.consumed

/-- The buffer holds what the account says. -/
structure Settles (account : Account) (buffer : Buffer) : Prop where
  balance : account.balance = buffer.data
  consumed : account.consumed ≤ account.appended.length
  limit : account.limit = buffer.maxSize

/-- **Every operation keeps the account.** -/
theorem apply_settles {account : Account} (h : Represents raw buffer) (hs : Settles account buffer)
    (op : Op) :
    ∃ result raw' buffer', raw.apply op = some (result, raw') ∧ Represents raw' buffer' ∧
      Settles (account.enter op result) buffer' := by
  cases op with
  | destroy => exact ⟨_, _, buffer.destroy, rfl, represents_destroy, rfl, Nat.le_refl _, rfl⟩
  | append bytes realloc =>
      have happend := append_simulates h bytes realloc
      cases hresult : buffer.append bytes realloc.isSome with
      | error e =>
          simp only [hresult] at happend
          exact ⟨_, raw, buffer, happend, h, hs⟩
      | ok buffer' =>
          simp only [hresult] at happend
          obtain ⟨raw', hraw, h'⟩ := happend
          obtain ⟨hdata, hmax, -⟩ := Buffer.append_ok hresult
          refine ⟨_, raw', buffer', hraw, h', ?_, ?_, ?_⟩
          · show (account.appended ++ bytes).drop account.consumed = buffer'.data
            rw [List.drop_append_of_le_length hs.consumed, hdata, ← hs.balance]
            rfl
          · show account.consumed ≤ (account.appended ++ bytes).length
            rw [List.length_append]
            exact Nat.le_add_right_of_le hs.consumed
          · exact hs.limit.trans hmax.symm
  | consume size =>
      have hconsume := consume_simulates h size
      cases hresult : buffer.consume size with
      | error e =>
          simp only [hresult] at hconsume
          exact ⟨_, raw, buffer, hconsume, h, hs⟩
      | ok buffer' =>
          simp only [hresult] at hconsume
          obtain ⟨raw', hraw, h'⟩ := hconsume
          obtain ⟨hdata, hmax, hle⟩ := Buffer.consume_ok hresult
          refine ⟨_, raw', buffer', hraw, h', ?_, ?_, ?_⟩
          · show account.appended.drop (account.consumed + size) = buffer'.data
            rw [← List.drop_drop, hdata, ← hs.balance]
            rfl
          · show account.consumed + size ≤ account.appended.length
            have hbalance := congrArg List.length hs.balance
            rw [Account.balance, List.length_drop] at hbalance
            have := hs.consumed
            omega
          · exact hs.limit.trans hmax.symm

/-- Any sequence of operations runs to its end, and the account is right. -/
theorem run_settles {account : Account} (h : Represents raw buffer) (hs : Settles account buffer)
    (ops : List Op) :
    ∃ results raw' buffer', raw.run ops = some (results, raw') ∧ Represents raw' buffer' ∧
      Settles (account.enterAll ops results) buffer' ∧ results.length = ops.length := by
  induction ops generalizing raw buffer account with
  | nil => exact ⟨[], raw, buffer, rfl, h, hs, rfl⟩
  | cons op ops ih =>
      obtain ⟨result, raw₁, buffer₁, hop, h₁, hs₁⟩ := apply_settles h hs op
      obtain ⟨results, raw', buffer', hops, h', hs', hlength⟩ := ih h₁ hs₁
      refine ⟨result :: results, raw', buffer', ?_, h', hs', by simp [hlength]⟩
      simp only [run, hop, hops, Option.bind_eq_bind, Option.bind_some]

/-- What an operation does to a buffer, and when it fails. -/
def Behaves (raw : RawBuffer) (op : Op) (result : Except Errno Unit) (raw' : RawBuffer) : Prop :=
  match op with
  | .append bytes realloc =>
      (result = .error .emsgsize ↔ raw.maxSize < raw.length + bytes.length) ∧
      (∀ e, result = .error e → e = .emsgsize ∨ (e = .enomem ∧ realloc = none)) ∧
      (result = .ok () → raw'.contents = raw.contents ++ bytes ∧ raw'.maxSize = raw.maxSize)
  | .consume size =>
      ((∃ e, result = .error e) ↔ raw.length < size) ∧
      (result = .ok () → raw'.contents = raw.contents.drop size ∧ raw'.maxSize = raw.maxSize)
  | .destroy => result = .ok () ∧ raw'.contents = [] ∧ raw'.length = 0 ∧ raw'.maxSize = 0

theorem append_behaves (h : Represents raw buffer) (bytes : Bytes) (realloc : Realloc) :
    ∃ result raw', raw.apply (.append bytes realloc) = some (result, raw') ∧
      Behaves raw (.append bytes realloc) result raw' ∧
      (∀ e, result = .error e → raw' = raw) := by
  have hlength : buffer.length = buffer.data.length := rfl
  have hle := buffer.length_le_maxSize
  have happend := append_simulates h bytes realloc
  cases hresult : buffer.append bytes realloc.isSome with
  | error e =>
      simp only [hresult] at happend
      refine ⟨.error e, raw, happend, ⟨?_, ?_, by simp⟩, fun _ _ => rfl⟩
      · rw [h.maxSize, h.length, hlength]
        rcases Buffer.append_error hresult with ⟨rfl, hbig⟩ | ⟨rfl, hrealloc⟩
        · simpa using hbig
        · -- memory is asked for only when the bytes fit
          simp only [Except.error.injEq, reduceCtorEq, false_iff, Nat.not_lt]
          by_contra hbig
          unfold Buffer.append at hresult
          rw [dif_pos (by rw [Buffer.sizeSub_length]; omega)] at hresult
          cases hresult
      · rintro e' ⟨⟩
        rcases Buffer.append_error hresult with ⟨he, -⟩ | ⟨he, hrealloc⟩
        · exact .inl he
        · exact .inr ⟨he, by simpa using hrealloc⟩
  | ok buffer' =>
      simp only [hresult] at happend
      obtain ⟨raw', hraw, h'⟩ := happend
      obtain ⟨hdata, hmax, hfit⟩ := Buffer.append_ok hresult
      refine ⟨.ok (), raw', hraw, ⟨?_, by simp, fun _ => ?_⟩, by simp⟩
      · rw [h.maxSize, h.length, hlength]
        simpa using hfit
      · rw [h'.contents, h.contents, h'.maxSize, h.maxSize]
        exact ⟨hdata, hmax⟩

theorem consume_behaves (h : Represents raw buffer) (size : Nat) :
    ∃ result raw', raw.apply (.consume size) = some (result, raw') ∧
      Behaves raw (.consume size) result raw' ∧ (∀ e, result = .error e → raw' = raw) := by
  have hconsume := consume_simulates h size
  cases hresult : buffer.consume size with
  | error e =>
      simp only [hresult] at hconsume
      refine ⟨.error e, raw, hconsume, ⟨?_, by simp⟩, fun _ _ => rfl⟩
      rw [h.length]
      refine ⟨fun _ => ?_, fun _ => ⟨e, rfl⟩⟩
      by_contra hle
      obtain ⟨buffer', hok⟩ := Buffer.consume_of_le buffer size (Nat.le_of_not_lt hle)
      rw [hresult] at hok
      cases hok
  | ok buffer' =>
      simp only [hresult] at hconsume
      obtain ⟨raw', hraw, h'⟩ := hconsume
      obtain ⟨hdata, hmax, hle⟩ := Buffer.consume_ok hresult
      refine ⟨.ok (), raw', hraw, ⟨?_, fun _ => ?_⟩, by simp⟩
      · rw [h.length, Buffer.length]
        simpa using hle
      · rw [h'.contents, h.contents, h'.maxSize, h.maxSize]
        exact ⟨hdata, hmax⟩

/-- **The bounded buffer refines a byte list.** Any sequence of operations on a new buffer runs
without touching memory that is not its own, whatever the allocator does. It leaves the sizes in
order and the bytes that the account of the operations says; and from there every further operation
succeeds or fails as it should, and changes nothing when it fails. -/
theorem buffer_refines (maxSize : Nat) (hmax : maxSize ≤ 2 ^ 64 - 1) (ops : List Op) :
    ∃ results raw, (init maxSize).run ops = some (results, raw) ∧ results.length = ops.length ∧
      raw.length ≤ raw.capacity ∧ raw.capacity ≤ raw.maxSize ∧
      raw.contents = ((⟨[], 0, maxSize⟩ : Account).enterAll ops results).balance ∧
      raw.contents.length = raw.length ∧
      raw.maxSize = ((⟨[], 0, maxSize⟩ : Account).enterAll ops results).limit ∧
      ∀ op, ∃ result raw', raw.apply op = some (result, raw') ∧ Behaves raw op result raw' ∧
        (∀ e, result = .error e → raw'.contents = raw.contents ∧ raw'.length = raw.length ∧
          raw'.capacity = raw.capacity ∧ raw'.maxSize = raw.maxSize) := by
  have hinit := represents_init maxSize hmax
  have hsettled : Settles ⟨[], 0, maxSize⟩ (.init maxSize hmax) := ⟨rfl, Nat.le_refl _, rfl⟩
  obtain ⟨results, raw, buffer, hrun, h, hs, hlength⟩ := run_settles hinit hsettled ops
  refine ⟨results, raw, hrun, hlength, ?_, ?_, ?_, ?_, ?_, ?_⟩
  · rw [h.length, h.capacity]
    exact buffer.length_le
  · rw [h.capacity, h.maxSize]
    exact buffer.capacity_le
  · rw [h.contents, hs.balance]
  · rw [h.contents, h.length]
    rfl
  · rw [h.maxSize, hs.limit]
  · intro op
    have hunchanged : ∀ {result : Except Errno Unit} {raw' : RawBuffer},
        (∀ e, result = .error e → raw' = raw) →
        ∀ e, result = .error e → raw'.contents = raw.contents ∧ raw'.length = raw.length ∧
          raw'.capacity = raw.capacity ∧ raw'.maxSize = raw.maxSize := by
      intro result raw' hsame e he
      obtain rfl := hsame e he
      exact ⟨rfl, rfl, rfl, rfl⟩
    cases op with
    | append bytes realloc =>
        obtain ⟨result, raw', hop, hbehaves, hsame⟩ := append_behaves h bytes realloc
        exact ⟨result, raw', hop, hbehaves, hunchanged hsame⟩
    | consume size =>
        obtain ⟨result, raw', hop, hbehaves, hsame⟩ := consume_behaves h size
        exact ⟨result, raw', hop, hbehaves, hunchanged hsame⟩
    | destroy => exact ⟨_, _, rfl, ⟨rfl, rfl, rfl, rfl⟩, by simp⟩

/-- Three bytes are appended, an append of two more fails, and one is consumed. -/
theorem buffer_refines_run : ∃ results raw,
    (init 4).run [.append [1, 2, 3] (some fun _ => 0), .append [4, 5] none, .consume 1] =
      some (results, raw) ∧ raw.contents = [2, 3] := by
  obtain ⟨results, raw, hrun, -, -, -, hcontents, -⟩ := buffer_refines 4 (by decide)
    [.append [1, 2, 3] (some fun _ => 0), .append [4, 5] none, .consume 1]
  refine ⟨results, raw, hrun, ?_⟩
  have hresults : ((init 4).run
      [.append [1, 2, 3] (some fun _ => 0), .append [4, 5] none, .consume 1]).map (·.1) =
        some [.ok (), .error .emsgsize, .ok ()] := by decide +kernel
  rw [hrun, Option.map_some, Option.some.injEq] at hresults
  obtain rfl := hresults
  exact hcontents

/-! ## The capacity -/

/-- **Growth ends and does not wrap around.** On any buffer whose capacity is within its limit, and
for any capacity that is required within it, the doubling loop ends with a capacity between the two,
which is what a successful `realloc` leaves in the buffer; and whenever the loop doubles, the product
is below `2 ^ 64`. -/
theorem grow_never_wraps (raw : RawBuffer) (required : Nat) (hmax : raw.maxSize ≤ sizeMax)
    (hcap : raw.capacity ≤ raw.maxSize) (hlt : raw.capacity < required)
    (hreq : required ≤ raw.maxSize) :
    (∃ c, Buffer.growCapacity raw.capacity raw.maxSize required = some c ∧
      Buffer.GrowVisits raw.maxSize required (Buffer.growStart raw.capacity raw.maxSize) c ∧
      required ≤ c ∧ c ≤ raw.maxSize ∧
      ∀ fresh, ∃ raw', raw.grow required (some fresh) = some (.ok (), raw') ∧
        raw'.capacity = c ∧ raw'.maxSize = raw.maxSize) ∧
    ∀ c, Buffer.GrowVisits raw.maxSize required (Buffer.growStart raw.capacity raw.maxSize) c →
      c < required → ¬ c > raw.maxSize / 2 → c * 2 < 2 ^ 64 := by
  constructor
  · obtain ⟨c, hgrow, hge, hle⟩ := Buffer.growCapacity_spec hcap hmax hlt hreq
    refine ⟨c, hgrow, Buffer.growVisits_of_growLoop .enter hgrow, hge, hle, ?_⟩
    intro fresh
    unfold grow
    rw [if_neg (Nat.not_le.mpr hlt), hgrow]
    exact ⟨_, rfl, rfl, rfl⟩
  · intro c hvisit _ hhalf
    have hle := hvisit.le_maxSize hmax (Buffer.growStart_le _ _)
    unfold sizeMax at hmax
    omega

/-- A buffer of 64 bytes without a limit of its own grows to the whole address space. -/
theorem grow_never_wraps_full : ∃ c,
    Buffer.growCapacity 64 sizeMax sizeMax = some c ∧ c = sizeMax := by
  obtain ⟨⟨c, hgrow, -, hge, hle, -⟩, -⟩ :=
    grow_never_wraps ⟨some (List.replicate 64 0), 64, 64, sizeMax⟩ sizeMax
      (by decide) (by decide) (by decide) (by decide)
  exact ⟨c, hgrow, Nat.le_antisymm hle hge⟩

end RawBuffer

end WireCommand
