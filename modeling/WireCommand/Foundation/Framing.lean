import Mathlib.Data.List.Basic

/-!
# Self-delimiting frames

Messages travel over a byte stream as frames, and a parser looks at the front of what has arrived:
the first frame is there, or more bytes are needed, or no frame can begin this way. A `Codec` is an
encoder with such a parser and the four laws that tie them together. Everything said here about
streams follows from the laws alone, for any messages and any alphabet.

A stream splits into the frames at its front and a remainder. The split is **maximal** when no
frame is left at the front of the remainder; it exists (`exists_maximal`), and it is unique
(`Maximal.unique`), so a reader that stops only at a maximal split has found *the* messages of the
stream, however the stream was cut into pieces on the way.
-/

namespace Foundation.Framing

/-- What a parser says about the front of a stream. -/
inductive Verdict (α : Type) where
  | complete (message : α) (consumed : Nat)
  | needMore
  | invalid
  deriving DecidableEq, Repr

/-- The verdict names a message at the front of the stream. -/
def Verdict.isComplete {α : Type} : Verdict α → Bool
  | .complete _ _ => true
  | _ => false

/-- An encoder and a parser of self-delimiting frames. -/
structure Codec (α β : Type) where
  encode : α → List β
  parse : List β → Verdict α
  encode_ne_nil : ∀ a, encode a ≠ []
  /-- A frame is recognised whatever follows it. -/
  parse_encode : ∀ a rest, parse (encode a ++ rest) = .complete a (encode a).length
  /-- Only a frame is recognised, and exactly that frame is consumed. -/
  encode_of_complete : ∀ {data a n}, parse data = .complete a n →
    n = (encode a).length ∧ ∃ rest, data = encode a ++ rest
  /-- A front that no frame can have stays one. -/
  invalid_append : ∀ {data} more, parse data = .invalid → parse (data ++ more) = .invalid

namespace Codec

variable {α β : Type} (C : Codec α β)

/-- The frames of some messages, in order. -/
def encodeAll (messages : List α) : List β := messages.flatMap C.encode

@[simp] theorem encodeAll_nil : C.encodeAll [] = [] := rfl

@[simp] theorem encodeAll_cons (a : α) (as : List α) :
    C.encodeAll (a :: as) = C.encode a ++ C.encodeAll as := rfl

@[simp] theorem encodeAll_append (as bs : List α) :
    C.encodeAll (as ++ bs) = C.encodeAll as ++ C.encodeAll bs := by
  simp [encodeAll]

theorem encodeAll_singleton (a : α) : C.encodeAll [a] = C.encode a := by simp

theorem encode_length_pos (a : α) : 0 < (C.encode a).length :=
  List.length_pos_iff.mpr (C.encode_ne_nil a)

/-- What is recognised stays recognised when more bytes arrive. -/
theorem complete_append {data : List β} {a : α} {n : Nat} (more : List β)
    (h : C.parse data = .complete a n) : C.parse (data ++ more) = .complete a n := by
  obtain ⟨rfl, rest, rfl⟩ := C.encode_of_complete h
  rw [List.append_assoc, C.parse_encode]

/-- A frame cut off before its end asks for more. -/
theorem parse_of_proper_prefix {a : α} {data rest : List β} (hsplit : C.encode a = data ++ rest)
    (hrest : rest ≠ []) : C.parse data = .needMore := by
  have hwhole := C.parse_encode a []
  rw [List.append_nil, hsplit] at hwhole
  cases hv : C.parse data with
  | needMore => rfl
  | invalid => rw [C.invalid_append rest hv] at hwhole; cases hwhole
  | complete b n =>
      -- the cut would hold a whole frame of the same message, which is longer than the cut
      rw [C.complete_append rest hv] at hwhole
      cases hwhole
      obtain ⟨hn, -⟩ := C.encode_of_complete hv
      obtain ⟨rest', hdata⟩ := (C.encode_of_complete hv).2
      have hlen := congrArg List.length hdata
      rw [hsplit] at hlen
      have := List.length_pos_iff.mpr hrest
      simp only [List.length_append] at hlen
      omega

/-- No frame is a proper prefix of another. -/
theorem encode_prefix_free {a b : α} {rest rest' : List β}
    (h : C.encode a ++ rest = C.encode b ++ rest') : a = b ∧ rest = rest' := by
  have ha := C.parse_encode a rest
  rw [h, C.parse_encode b rest'] at ha
  cases ha
  exact ⟨rfl, List.append_cancel_left h⟩

/-- Frames at the front of a sequence of frames are the frames of its first messages. -/
theorem encodeAll_split {as bs : List α} {rest : List β}
    (h : C.encodeAll as ++ rest = C.encodeAll bs) :
    ∃ cs, bs = as ++ cs ∧ rest = C.encodeAll cs := by
  induction as generalizing bs with
  | nil => exact ⟨bs, rfl, by simpa using h⟩
  | cons a as ih =>
      cases bs with
      | nil =>
          rw [encodeAll_cons, encodeAll_nil, List.append_assoc, List.append_eq_nil_iff] at h
          exact absurd h.1 (C.encode_ne_nil a)
      | cons b bs =>
          rw [encodeAll_cons, encodeAll_cons, List.append_assoc] at h
          obtain ⟨rfl, htail⟩ := C.encode_prefix_free h
          obtain ⟨cs, rfl, hrest⟩ := ih htail
          exact ⟨cs, rfl, hrest⟩

theorem encodeAll_injective : Function.Injective C.encodeAll := by
  intro as bs h
  obtain ⟨cs, rfl, hnone⟩ := C.encodeAll_split ((List.append_nil _).trans h)
  cases cs with
  | nil => rw [List.append_nil]
  | cons c cs =>
      rw [encodeAll_cons, eq_comm, List.append_eq_nil_iff] at hnone
      exact absurd hnone.1 (C.encode_ne_nil c)

/-- A single frame splits in two ways only: not at all, or into itself and nothing. -/
theorem encode_split {a : α} {as : List α} {rest : List β}
    (h : C.encode a = C.encodeAll as ++ rest) :
    (as = [] ∧ rest = C.encode a) ∨ (as = [a] ∧ rest = []) := by
  have hone : C.encodeAll as ++ rest = C.encodeAll [a] := by rw [encodeAll_singleton, h]
  obtain ⟨cs, hcs, rfl⟩ := C.encodeAll_split hone
  cases as with
  | nil => exact .inl ⟨rfl, by rw [← encodeAll_singleton, hcs, List.nil_append]⟩
  | cons b bs =>
      simp only [List.cons_append, List.cons.injEq, List.nil_eq, List.append_eq_nil_iff] at hcs
      obtain ⟨rfl, rfl, rfl⟩ := hcs
      exact .inr ⟨rfl, rfl⟩

/-! ## Maximal splits -/

/-- The stream is the frames of `messages` followed by `rest`, and no frame is at the front of
`rest`. -/
structure Maximal (data : List β) (messages : List α) (rest : List β) : Prop where
  split : data = C.encodeAll messages ++ rest
  done : (C.parse rest).isComplete = false

/-- **A stream has one maximal split.** -/
theorem Maximal.unique {C : Codec α β} {data rest rest' : List β} {as bs : List α}
    (h : C.Maximal data as rest) (h' : C.Maximal data bs rest') : as = bs ∧ rest = rest' := by
  obtain ⟨rfl, hdone⟩ := h
  obtain ⟨hsplit, hdone'⟩ := h'
  -- where one split stops and the other goes on, the remainder of the first starts with a frame
  induction as generalizing bs with
  | nil =>
      cases bs with
      | nil => exact ⟨rfl, by simpa using hsplit⟩
      | cons b bs =>
          simp only [encodeAll_nil, List.nil_append, encodeAll_cons, List.append_assoc] at hsplit
          rw [hsplit, C.parse_encode] at hdone
          simp [Verdict.isComplete] at hdone
  | cons a as ih =>
      cases bs with
      | nil =>
          simp only [encodeAll_cons, List.append_assoc, encodeAll_nil, List.nil_append] at hsplit
          rw [← hsplit, C.parse_encode] at hdone'
          simp [Verdict.isComplete] at hdone'
      | cons b bs =>
          simp only [encodeAll_cons, List.append_assoc] at hsplit
          obtain ⟨rfl, hrest⟩ := C.encode_prefix_free hsplit
          obtain ⟨rfl, rfl⟩ := ih hrest
          exact ⟨rfl, rfl⟩

/-- Every stream has a maximal split. The induction is on the length of what is still to split. -/
theorem exists_maximal (data : List β) : ∃ messages rest, C.Maximal data messages rest := by
  induction hn : data.length using Nat.strongRecOn generalizing data with
  | ind n ih =>
      cases hv : C.parse data with
      | needMore => exact ⟨[], data, rfl, by simp [hv, Verdict.isComplete]⟩
      | invalid => exact ⟨[], data, rfl, by simp [hv, Verdict.isComplete]⟩
      | complete a k =>
          obtain ⟨-, rest, rfl⟩ := C.encode_of_complete hv
          have hpos := C.encode_length_pos a
          have hshort : rest.length < n := by
            rw [← hn, List.length_append]; omega
          obtain ⟨messages, rest', hsplit, hdone⟩ := ih rest.length hshort rest rfl
          exact ⟨a :: messages, rest', by simp [← hsplit], hdone⟩

/-- Bytes that arrive behind a split extend its remainder. -/
theorem split_append {data rest more : List β} {messages : List α}
    (h : data = C.encodeAll messages ++ rest) :
    data ++ more = C.encodeAll messages ++ (rest ++ more) := by
  rw [h, List.append_assoc]

/-- Splitting can be interrupted: what arrives behind a split is split together with its
remainder. -/
theorem Maximal.append {data rest rest' more : List β} {messages messages' : List α}
    (hsplit : data = C.encodeAll messages ++ rest) (h : C.Maximal (rest ++ more) messages' rest') :
    C.Maximal (data ++ more) (messages ++ messages') rest' where
  split := by rw [C.split_append hsplit, h.split, encodeAll_append, List.append_assoc]
  done := h.done

/-- A stream whose remainder is already malformed has its maximal split, whatever follows. -/
theorem Maximal.of_invalid {data rest : List β} {messages : List α} (more : List β)
    (hsplit : data = C.encodeAll messages ++ rest) (hinv : C.parse rest = .invalid) :
    C.Maximal (data ++ more) messages (rest ++ more) where
  split := C.split_append hsplit
  done := by rw [C.invalid_append more hinv]; rfl

/-- A stream that ends where its remainder asks for more has its maximal split. -/
theorem Maximal.of_needMore {data rest : List β} {messages : List α}
    (hsplit : data = C.encodeAll messages ++ rest) (hmore : C.parse rest = .needMore) :
    C.Maximal data messages rest where
  split := hsplit
  done := by rw [hmore]; rfl

end Codec

end Foundation.Framing
