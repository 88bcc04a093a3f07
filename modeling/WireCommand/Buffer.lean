import WireCommand.Basic

/-!
# The bounded buffer

`struct wc_buffer` and its operations. A `Buffer` holds the bytes that `data` and `length` describe,
together with the two redundant sizes, and carries `length ≤ capacity ≤ max_size` as fields: an
operation has to establish them to return a buffer at all.

The allocator may fail at any call. Each function that can reach `realloc` takes one flag that says
whether that call succeeds; the flag is read only when the call is made.

The doubling loop of `wc_buffer_grow` is `growLoop`, with a bound on its iterations and with the
product reduced modulo `2 ^ 64`. `growLoop_terminates` shows that the bound is never reached and
that no product wraps, which is what lets `grow` be a total function.
-/

namespace WireCommand

/-- `struct wc_buffer`: `data` is the first `length` bytes of the allocation. -/
structure Buffer where
  data : Bytes
  capacity : Nat
  maxSize : Nat
  length_le : data.length ≤ capacity
  capacity_le : capacity ≤ maxSize
  maxSize_le : maxSize ≤ sizeMax

namespace Buffer

/-- `buffer->length`. -/
def length (buffer : Buffer) : Nat := buffer.data.length

theorem length_le_maxSize (buffer : Buffer) : buffer.data.length ≤ buffer.maxSize :=
  le_trans buffer.length_le buffer.capacity_le

/-! ## Growth -/

/-- `WC_BUFFER_INITIAL_CAPACITY`. -/
def initialCapacity : Nat := 64

/-- The doubling loop of `wc_buffer_grow`, for at most `fuel` tests of its condition; `none` when
the loop is still running then. -/
def growLoop (maxSize required : Nat) : Nat → Nat → Option Nat
  | 0, _ => none
  | fuel + 1, newCapacity =>
      if newCapacity < required then
        growLoop maxSize required fuel
          (if newCapacity > maxSize / 2 then maxSize else sizeMul newCapacity 2)
      else
        some newCapacity

/-- What `new_capacity` is when the doubling loop begins. -/
def growStart (capacity maxSize : Nat) : Nat :=
  let newCapacity := if capacity = 0 then initialCapacity else capacity
  if newCapacity > maxSize then maxSize else newCapacity

/-- The capacity `wc_buffer_grow` asks `realloc` for. -/
def growCapacity (capacity maxSize required : Nat) : Option Nat :=
  growLoop maxSize required 66 (growStart capacity maxSize)

theorem growStart_le (capacity maxSize : Nat) : growStart capacity maxSize ≤ maxSize := by
  simp only [growStart]
  generalize (if capacity = 0 then initialCapacity else capacity) = newCapacity
  split <;> omega

/-- **The doubling loop ends.** A positive capacity reaches `2 ^ k` after `k` doublings, so with
`2 ^ k ≤ newCapacity` at most `66 - k` tests are left before it would leave `size_t`. -/
theorem growLoop_terminates {maxSize required : Nat} (hmax : maxSize ≤ sizeMax)
    (hreq : required ≤ maxSize) :
    ∀ (fuel k newCapacity : Nat), 66 ≤ fuel + k → 2 ^ k ≤ newCapacity → newCapacity ≤ maxSize →
      ∃ c, growLoop maxSize required fuel newCapacity = some c ∧ required ≤ c ∧ c ≤ maxSize := by
  intro fuel
  induction fuel with
  | zero =>
      -- 66 doublings would have passed any `size_t`
      intro k c hk hpow hc
      have hbig : 2 ^ 66 ≤ 2 ^ k := Nat.pow_le_pow_right (by omega) (by omega)
      unfold sizeMax at hmax
      omega
  | succ fuel ih =>
      intro k c hk hpow hc
      unfold growLoop
      by_cases hlt : c < required
      · simp only [hlt, if_true]
        by_cases hhalf : c > maxSize / 2
        · -- the jump to `max_size`: one more test and the loop is done
          simp only [hhalf, if_true]
          have hk64 : k < 64 := by
            by_contra hge
            have hbig : 2 ^ 64 ≤ 2 ^ k := Nat.pow_le_pow_right (by omega) (by omega)
            unfold sizeMax at hmax
            omega
          obtain ⟨fuel', rfl⟩ : ∃ fuel', fuel = fuel' + 1 := ⟨fuel - 1, by omega⟩
          exact ⟨maxSize, by simp [growLoop, Nat.not_lt.mpr hreq], hreq, le_refl _⟩
        · simp only [hhalf, if_false]
          have hdouble : c * 2 ≤ maxSize := by omega
          rw [sizeMul_eq (le_trans hdouble hmax)]
          exact ih (k + 1) (c * 2) (by omega) (by rw [Nat.pow_succ]; omega) hdouble
      · simp only [hlt, if_false]
        exact ⟨c, rfl, by omega, hc⟩

/-- `wc_buffer_grow` finds a capacity that holds what is required and respects the limit. -/
theorem growCapacity_spec {capacity maxSize required : Nat} (hcap : capacity ≤ maxSize)
    (hmax : maxSize ≤ sizeMax) (hlt : capacity < required) (hreq : required ≤ maxSize) :
    ∃ c, growCapacity capacity maxSize required = some c ∧ required ≤ c ∧ c ≤ maxSize := by
  unfold growCapacity
  apply growLoop_terminates hmax hreq 66 0
  · omega
  · simp only [growStart, initialCapacity]
    split <;> split <;> omega
  · exact growStart_le capacity maxSize

/-- The values `new_capacity` has at the tests of the doubling loop. -/
inductive GrowVisits (maxSize required start : Nat) : Nat → Prop
  | enter : GrowVisits maxSize required start start
  | jump {c : Nat} (h : GrowVisits maxSize required start c) (hlt : c < required)
      (hhalf : c > maxSize / 2) : GrowVisits maxSize required start maxSize
  | double {c : Nat} (h : GrowVisits maxSize required start c) (hlt : c < required)
      (hhalf : ¬ c > maxSize / 2) : GrowVisits maxSize required start (sizeMul c 2)

/-- The loop ends at a value it has visited. -/
theorem growVisits_of_growLoop {maxSize required start : Nat} :
    ∀ {fuel newCapacity c : Nat}, GrowVisits maxSize required start newCapacity →
      growLoop maxSize required fuel newCapacity = some c →
      GrowVisits maxSize required start c := by
  intro fuel
  induction fuel with
  | zero =>
      intro newCapacity c _ h
      cases h
  | succ fuel ih =>
      intro newCapacity c hvisit h
      unfold growLoop at h
      split at h
      · next hlt =>
          split at h
          · next hhalf => exact ih (hvisit.jump hlt hhalf) h
          · next hhalf => exact ih (hvisit.double hlt hhalf) h
      · cases h
        exact hvisit

/-- No value of the loop is above the limit: it is doubled only up to half of it. -/
theorem GrowVisits.le_maxSize {maxSize required start c : Nat} (hmax : maxSize ≤ sizeMax)
    (hstart : start ≤ maxSize) (h : GrowVisits maxSize required start c) : c ≤ maxSize := by
  induction h with
  | enter => exact hstart
  | jump => exact le_refl _
  | double _ _ hhalf _ =>
      rw [sizeMul_eq (by omega)]
      omega

/-- What `wc_buffer_grow` leaves in `buffer->capacity`, when `realloc` succeeds. -/
theorem growCapacity_isSome {capacity maxSize required : Nat} (hcap : capacity ≤ maxSize)
    (hmax : maxSize ≤ sizeMax) (hlt : capacity < required) (hreq : required ≤ maxSize) :
    (growCapacity capacity maxSize required).isSome := by
  obtain ⟨c, hc, -⟩ := growCapacity_spec hcap hmax hlt hreq
  simp [hc]

theorem growCapacity_get {capacity maxSize required : Nat} (hcap : capacity ≤ maxSize)
    (hmax : maxSize ≤ sizeMax) (hlt : capacity < required) (hreq : required ≤ maxSize) :
    required ≤ (growCapacity capacity maxSize required).get
        (growCapacity_isSome hcap hmax hlt hreq) ∧
      (growCapacity capacity maxSize required).get
        (growCapacity_isSome hcap hmax hlt hreq) ≤ maxSize := by
  obtain ⟨c, hc, hr⟩ := growCapacity_spec hcap hmax hlt hreq
  simpa [hc] using hr

/-- `wc_buffer_grow`: room for `required` bytes, which the caller has checked against the limit. -/
def grow (buffer : Buffer) (required : Nat) (hreq : required ≤ buffer.maxSize)
    (reallocOk : Bool) : Except Errno { b : Buffer // required ≤ b.capacity ∧
      b.data = buffer.data ∧ b.maxSize = buffer.maxSize } :=
  if h : required ≤ buffer.capacity then
    .ok ⟨buffer, h, rfl, rfl⟩
  else
    have hlt : buffer.capacity < required := Nat.lt_of_not_le h
    have hget := growCapacity_get buffer.capacity_le buffer.maxSize_le hlt hreq
    if reallocOk then
      .ok ⟨{ buffer with
              capacity := (growCapacity buffer.capacity buffer.maxSize required).get
                (growCapacity_isSome buffer.capacity_le buffer.maxSize_le hlt hreq)
              length_le := le_trans buffer.length_le (le_trans (Nat.le_of_lt hlt) hget.1)
              capacity_le := hget.2 }, hget.1, rfl, rfl⟩
    else
      .error .enomem

/-! ## The operations -/

/-- `wc_buffer_init`: nothing is allocated until the first append. -/
def init (maxSize : Nat) (h : maxSize ≤ sizeMax) : Buffer where
  data := []
  capacity := 0
  maxSize := maxSize
  length_le := Nat.le_refl _
  capacity_le := Nat.zero_le _
  maxSize_le := h

/-- The space left, as `wc_buffer_append` computes it. -/
theorem sizeSub_length (buffer : Buffer) :
    sizeSub buffer.maxSize buffer.length = buffer.maxSize - buffer.length :=
  sizeSub_eq buffer.length_le_maxSize

/-- The sum `wc_buffer_append` asks room for does not wrap, and respects the limit. -/
theorem sizeAdd_length {buffer : Buffer} {size : Nat}
    (h : ¬ size > sizeSub buffer.maxSize buffer.length) :
    sizeAdd buffer.length size = buffer.length + size ∧
      buffer.length + size ≤ buffer.maxSize := by
  have hlen : buffer.length ≤ buffer.maxSize := buffer.length_le_maxSize
  have hmax := buffer.maxSize_le
  rw [sizeSub_length] at h
  have hle : buffer.length + size ≤ buffer.maxSize := by omega
  exact ⟨sizeAdd_eq (le_trans hle hmax), hle⟩

/-- `wc_buffer_append` of non-NULL bytes. -/
@[irreducible] def append (buffer : Buffer) (bytes : Bytes) (reallocOk : Bool) : Except Errno Buffer :=
  if hsize : bytes.length > sizeSub buffer.maxSize buffer.length then
    .error .emsgsize
  else if bytes.length = 0 then
    .ok buffer
  else
    have hsum := sizeAdd_length hsize
    have hreq : sizeAdd buffer.length bytes.length ≤ buffer.maxSize := by rw [hsum.1]; exact hsum.2
    match grow buffer (sizeAdd buffer.length bytes.length) hreq reallocOk with
    | .error e => .error e
    | .ok grown =>
        .ok { grown.val with
              data := grown.val.data ++ bytes
              length_le := by
                simp only [List.length_append, grown.property.2.1]
                exact hsum.1 ▸ grown.property.1 }

/-- `wc_buffer_consume`. -/
@[irreducible] def consume (buffer : Buffer) (size : Nat) : Except Errno Buffer :=
  if size > buffer.length then
    .error .einval
  else if size = 0 then
    .ok buffer
  else
    .ok { buffer with
          data := buffer.data.drop size
          length_le := by
            rw [List.length_drop]
            exact le_trans (Nat.sub_le _ _) buffer.length_le }

/-- The encoders' rollback: `output->length = original_length`. -/
def truncate (buffer : Buffer) (length : Nat) : Buffer :=
  { buffer with
    data := buffer.data.take length
    length_le := by
      rw [List.length_take]
      exact le_trans (Nat.min_le_right _ _) buffer.length_le }

/-- The end of both encoders: append a header and then a body, and take the header back when the
body cannot be appended. The result, and the buffer that is left. -/
def appendFrame (output : Buffer) (header body : Bytes) (headerOk bodyOk : Bool) :
    Except Errno Unit × Buffer :=
  let originalLength := output.length
  match output.append header headerOk with
  | .error e => (.error e, output)
  | .ok output =>
      match output.append body bodyOk with
      | .error e => (.error e, output.truncate originalLength)
      | .ok output => (.ok (), output)

/-- `wc_buffer_destroy`. -/
def destroy (_buffer : Buffer) : Buffer := init 0 (Nat.zero_le _)

/-! ## What the operations do -/

@[simp] theorem init_data (maxSize : Nat) (h : maxSize ≤ sizeMax) : (init maxSize h).data = [] := rfl

@[simp] theorem init_maxSize (maxSize : Nat) (h : maxSize ≤ sizeMax) :
    (init maxSize h).maxSize = maxSize := rfl

/-- A successful append adds exactly the bytes, and they fitted. -/
theorem append_ok {buffer buffer' : Buffer} {bytes : Bytes} {reallocOk : Bool}
    (h : buffer.append bytes reallocOk = .ok buffer') :
    buffer'.data = buffer.data ++ bytes ∧ buffer'.maxSize = buffer.maxSize ∧
      buffer.data.length + bytes.length ≤ buffer.maxSize := by
  unfold append at h
  split at h
  · cases h
  · rename_i hsize
    have hfit := (sizeAdd_length hsize).2
    split at h
    · next hzero =>
        cases h
        rw [List.length_eq_zero_iff] at hzero
        subst hzero
        exact ⟨(List.append_nil _).symm, rfl, hfit⟩
    · simp only at h
      split at h
      · cases h
      · next grown hgrown =>
          cases h
          exact ⟨by simp only [grown.property.2.1], grown.property.2.2, hfit⟩

/-- An append fails with `EMSGSIZE` exactly when the bytes do not fit, and otherwise only when the
allocator does. -/
theorem append_error {buffer : Buffer} {bytes : Bytes} {reallocOk : Bool} {e : Errno}
    (h : buffer.append bytes reallocOk = .error e) :
    (e = .emsgsize ∧ buffer.maxSize < buffer.data.length + bytes.length) ∨
      (e = .enomem ∧ reallocOk = false) := by
  unfold append at h
  split at h
  · rename_i hsize
    cases h
    rw [sizeSub_length] at hsize
    exact .inl ⟨rfl, by unfold length at hsize; omega⟩
  · split at h
    · cases h
    · simp only at h
      split at h
      · next e' hgrow =>
          cases h
          unfold grow at hgrow
          split at hgrow
          · cases hgrow
          · simp only at hgrow
            split at hgrow
            · cases hgrow
            · next hrealloc => cases hgrow; exact .inr ⟨rfl, by simpa using hrealloc⟩
      · cases h

/-- With the allocator's help, an append succeeds when the bytes fit. -/
theorem append_of_fits (buffer : Buffer) (bytes : Bytes)
    (hfit : buffer.data.length + bytes.length ≤ buffer.maxSize) :
    ∃ buffer', buffer.append bytes true = .ok buffer' := by
  cases h : buffer.append bytes true with
  | ok buffer' => exact ⟨buffer', rfl⟩
  | error e =>
      rcases append_error h with ⟨-, hbig⟩ | ⟨-, hfalse⟩
      · omega
      · cases hfalse

theorem appendFrame_ok {output output' : Buffer} {header body : Bytes} {headerOk bodyOk : Bool}
    (h : output.appendFrame header body headerOk bodyOk = (.ok (), output')) :
    output'.data = output.data ++ (header ++ body) ∧ output'.maxSize = output.maxSize := by
  unfold appendFrame at h
  cases h₁ : output.append header headerOk with
  | error e => rw [h₁] at h; cases h
  | ok output₁ =>
      obtain ⟨hdata₁, hmax₁, -⟩ := append_ok h₁
      cases h₂ : output₁.append body bodyOk with
      | error e => simp only [h₁, h₂] at h; cases h
      | ok output₂ =>
          simp only [h₁, h₂, Prod.mk.injEq, true_and] at h
          obtain ⟨hdata₂, hmax₂, -⟩ := append_ok h₂
          rw [← h, hdata₂, hdata₁, List.append_assoc, hmax₂, hmax₁]
          exact ⟨rfl, rfl⟩

/-- A frame is refused for want of room or of memory. -/
theorem appendFrame_error {output output' : Buffer} {header body : Bytes} {headerOk bodyOk : Bool}
    {e : Errno} (h : output.appendFrame header body headerOk bodyOk = (.error e, output')) :
    e = .emsgsize ∨ e = .enomem := by
  have hone : ∀ {buffer : Buffer} {bytes : Bytes} {ok : Bool} {e' : Errno},
      buffer.append bytes ok = .error e' → e' = .emsgsize ∨ e' = .enomem := by
    intro buffer bytes ok e' happend
    rcases append_error happend with ⟨he, -⟩ | ⟨he, -⟩
    · exact .inl he
    · exact .inr he
  unfold appendFrame at h
  simp only at h
  split at h
  · next happend => cases h; exact hone happend
  · split at h
    · next happend => cases h; exact hone happend
    · cases h

/-- **A refused frame leaves no trace**, wherever it was refused: the header that was appended
before the body could not be is taken back. -/
theorem appendFrame_restores {output output' : Buffer} {header body : Bytes} {headerOk bodyOk : Bool}
    {e : Errno} (h : output.appendFrame header body headerOk bodyOk = (.error e, output')) :
    output'.data = output.data ∧ output'.maxSize = output.maxSize := by
  unfold appendFrame at h
  simp only at h
  split at h
  · cases h
    exact ⟨rfl, rfl⟩
  · next output₁ h₁ =>
      obtain ⟨hdata, hmax, -⟩ := append_ok h₁
      split at h
      · cases h
        refine ⟨?_, hmax⟩
        show output₁.data.take output.data.length = output.data
        rw [hdata, List.take_left]
      · cases h

theorem appendFrame_maxSize (output : Buffer) (header body : Bytes) (headerOk bodyOk : Bool) :
    (output.appendFrame header body headerOk bodyOk).2.maxSize = output.maxSize := by
  cases h : output.appendFrame header body headerOk bodyOk with
  | mk result output' =>
      cases result with
      | ok _ => exact (appendFrame_ok h).2
      | error e => exact (appendFrame_restores h).2

/-- A frame that fits is refused only for want of memory. -/
theorem appendFrame_enomem {output output' : Buffer} {header body : Bytes} {headerOk bodyOk : Bool}
    {e : Errno} (hfit : output.data.length + (header.length + body.length) ≤ output.maxSize)
    (h : output.appendFrame header body headerOk bodyOk = (.error e, output')) :
    e = .enomem ∧ (headerOk = false ∨ bodyOk = false) := by
  unfold appendFrame at h
  simp only at h
  split at h
  · next h₁ =>
      cases h
      rcases append_error h₁ with ⟨-, hbig⟩ | ⟨he, hfalse⟩
      · omega
      · exact ⟨he, .inl hfalse⟩
  · next output₁ h₁ =>
      obtain ⟨hdata, hmax, -⟩ := append_ok h₁
      split at h
      · next h₂ =>
          cases h
          rcases append_error h₂ with ⟨-, hbig⟩ | ⟨he, hfalse⟩
          · rw [hdata, hmax, List.length_append] at hbig
            omega
          · exact ⟨he, .inr hfalse⟩
      · cases h

theorem appendFrame_of_fits {output : Buffer} {header body : Bytes}
    (hfit : output.data.length + (header.length + body.length) ≤ output.maxSize) :
    ∃ output', output.appendFrame header body true true = (.ok (), output') := by
  obtain ⟨output₁, h₁⟩ := append_of_fits output header (by omega)
  obtain ⟨hdata₁, hmax₁, -⟩ := append_ok h₁
  obtain ⟨output₂, h₂⟩ := append_of_fits output₁ body
    (by rw [hdata₁, hmax₁, List.length_append]; omega)
  exact ⟨output₂, by simp only [appendFrame, h₁, h₂]⟩

theorem consume_ok {buffer buffer' : Buffer} {size : Nat} (h : buffer.consume size = .ok buffer') :
    buffer'.data = buffer.data.drop size ∧ buffer'.maxSize = buffer.maxSize ∧
      size ≤ buffer.data.length := by
  unfold consume at h
  split at h
  · cases h
  · rename_i hle
    have hle' : size ≤ buffer.data.length := Nat.le_of_not_lt hle
    split at h
    · next hzero => cases h; subst hzero; exact ⟨rfl, rfl, hle'⟩
    · cases h; exact ⟨rfl, rfl, hle'⟩

/-- Consuming what is there cannot fail. -/
theorem consume_of_le (buffer : Buffer) (size : Nat) (h : size ≤ buffer.data.length) :
    ∃ buffer', buffer.consume size = .ok buffer' := by
  unfold consume
  rw [if_neg (Nat.not_lt.mpr h : ¬ size > buffer.length)]
  split <;> exact ⟨_, rfl⟩

end Buffer

end WireCommand
