import WireCommand.Client
import WireCommand.Foundation.Play

/-!
# Writing everything

A whole call of `wc_socket_write_all`, against whatever `write` returns. An iteration hands the
kernel what lies behind the bytes that are counted as written, and the kernel takes a part of it
from the front, so what it has taken stays a front of the data as long as the count is right:

* `WriteCall.Ok` is the invariant, and `step_wrote` says what an iteration does;
* `writeAll_delivers` says what the call comes to, for any sequence of outcomes, and that it returns
  0 when `write` keeps taking something.
-/

namespace WireCommand.Client

open Foundation

/-! ## The call -/

/-- A call of `wc_socket_write_all`: `total_written`, and what it returned if it has; `accepted` is a
ghost, the bytes the kernel has taken. -/
structure WriteCall where
  total : Nat
  result : Option (Except Errno Unit)
  accepted : Bytes
  deriving DecidableEq

/-- How many bytes a call of `write` took. -/
def WriteOutcome.count : WriteOutcome → Nat
  | .wrote count => count
  | _ => 0

/-- The test of the loop: the function returns 0 when it fails. -/
def writeTest (size total : Nat) : Option (Except Errno Unit) :=
  if total < size then none else some (.ok ())

/-- The call when it reaches its loop, or returns in front of it. -/
def WriteCall.start (data : Span) : WriteCall where
  total := 0
  result := if data.isNull ∧ data.size ≠ 0 then some (.error .einval) else writeTest data.size 0
  accepted := []

/-- One iteration, with the test that follows it. -/
def WriteCall.step (data : Span) (call : WriteCall) (outcome : WriteOutcome) : Option WriteCall :=
  match call.result with
  | some _ => none
  | none =>
      (writeAll data.data call.total outcome).map fun
        | .error e => { call with result := some (.error e) }
        | .ok total => {
            total := total
            result := writeTest data.size total
            -- `write` was given `bytes + total_written`
            accepted := call.accepted ++ (data.data.drop call.total).take outcome.count }

/-- `wc_socket_write_all`. -/
def writeAllCall (data : Span) : StepSystem WriteCall WriteOutcome :=
  .ofFn (fun call => call = .start data) (WriteCall.step data)

variable {data : Span} {call call' : WriteCall} {outcome : WriteOutcome}

/-- There is something to read behind the pointer, or nothing is asked for. -/
def Readable (data : Span) : Prop := data.isNull = true → data.size = 0

theorem Readable.size_eq (h : Readable data) : data.size = data.data.length := by
  cases data with
  | null size => exact h rfl
  | bytes data => rfl

/-! ## What an iteration does -/

/-- One iteration, by the outcome of its `write`. -/
inductive Wrote (data : Span) (call : WriteCall) : WriteOutcome → WriteCall → Prop
  | some {count : Nat} (hpos : 0 < count) (hle : call.total + count ≤ data.size) :
      Wrote data call (.wrote count)
        { total := call.total + count
          result := writeTest data.size (call.total + count)
          accepted := call.accepted ++ (data.data.drop call.total).take count }
  | interrupted : Wrote data call .interrupted call
  | zero : Wrote data call .zero { call with result := some (.error .eio) }
  | failed {e : Errno} : Wrote data call (.failed e) { call with result := some (.error e) }

/-- Where the call is: what the kernel has taken is what is counted, and something is left unless the
function has returned 0. -/
structure WriteCall.Ok (data : Span) (call : WriteCall) : Prop where
  accepted : call.accepted = data.data.take call.total
  total_le : call.total ≤ data.size
  done_iff : call.total = data.size ↔ call.result = some (.ok ())

/-- A call that has not returned has something left. -/
theorem WriteCall.Ok.total_lt (hok : call.Ok data) (hrunning : call.result = none) :
    call.total < data.size := by
  apply Nat.lt_of_le_of_ne hok.total_le
  intro heq
  rw [hok.done_iff, hrunning] at heq
  cases heq

theorem writeTest_eq {size total : Nat} (h : total ≤ size) :
    writeTest size total = if total = size then some (.ok ()) else none := by
  unfold writeTest
  grind

theorem WriteCall.ok_start (hdata : Readable data) : (WriteCall.start data).Ok data := by
  have hnull : ¬ (data.isNull ∧ data.size ≠ 0) := by
    rintro ⟨hnull, hsize⟩
    exact hsize (hdata hnull)
  refine ⟨by simp [start], Nat.zero_le _, ?_⟩
  show 0 = data.size ↔ (if _ then _ else _) = _
  rw [if_neg hnull, writeTest_eq (Nat.zero_le _)]
  by_cases hzero : 0 = data.size
  · simp [← hzero]
  · simp [hzero]

/-- What an iteration counts is what the kernel took. -/
theorem writeAll_count {data : Bytes} {total total' : Nat} (htotal : total ≤ data.length)
    (hsize : data.length ≤ sizeMax) (h : writeAll data total outcome = some (.ok total')) :
    total' = total + outcome.count := by
  cases outcome with
  | wrote count =>
      simp only [writeAll, sizeSub_eq htotal] at h
      split at h
      · rw [sizeAdd_eq (by omega)] at h
        cases h
        rfl
      · cases h
  | interrupted =>
      cases h
      rfl
  | zero => cases h
  | failed e => cases h

/-- **The call steps as its outcomes say**, and counts without wrapping around. -/
theorem WriteCall.step_wrote (hdata : Readable data) (hsize : data.size ≤ sizeMax)
    (hok : call.Ok data) (h : call.step data outcome = some call') :
    call.result = none ∧ Wrote data call outcome call' := by
  unfold step at h
  split at h
  · cases h
  · next hrunning =>
      refine ⟨hrunning, ?_⟩
      have hlt := hok.total_lt hrunning
      obtain ⟨result, hwrite, rfl⟩ := Option.map_eq_some_iff.mp h
      cases outcome with
      | wrote count =>
          simp only [writeAll, ← hdata.size_eq, sizeSub_eq hok.total_le] at hwrite
          split at hwrite
          · next hcount =>
              rw [sizeAdd_eq (by omega)] at hwrite
              cases hwrite
              exact .some hcount.1 (by omega)
          · cases hwrite
      | interrupted =>
          cases hwrite
          have hsame : writeTest data.size call.total = call.result := by
            rw [writeTest_eq hok.total_le, if_neg (Nat.ne_of_lt hlt), hrunning]
          simp only [hsame, WriteOutcome.count, List.take_zero, List.append_nil]
          exact .interrupted
      | zero =>
          cases hwrite
          exact .zero
      | failed e =>
          cases hwrite
          exact .failed

theorem Wrote.ok (hwrote : Wrote data call outcome call') (hok : call.Ok data)
    (hrunning : call.result = none) : call'.Ok data := by
  have hlt := Nat.ne_of_lt (hok.total_lt hrunning)
  obtain ⟨haccepted, hle, hdone⟩ := hok
  cases hwrote with
  | interrupted => exact ⟨haccepted, hle, hdone⟩
  | zero => exact ⟨haccepted, hle, by simp [hlt]⟩
  | failed => exact ⟨haccepted, hle, by simp [hlt]⟩
  | some hpos hroom =>
      refine ⟨?_, hroom, ?_⟩
      · show call.accepted ++ _ = _
        rw [haccepted, ← List.take_add]
      · show _ ↔ writeTest _ _ = _
        rw [writeTest_eq hroom]
        grind

/-- How much the call has still to write. -/
def WriteCall.left (data : Span) (call : WriteCall) : Nat :=
  if call.result = none then data.size - call.total else 0

/-- A call of `write` was interrupted and has to be made again. -/
def WriteOutcome.idle : WriteOutcome → Bool
  | .interrupted => true
  | _ => false

/-- Every iteration writes something, ends the call, or was interrupted. -/
theorem Wrote.left_lt (hwrote : Wrote data call outcome call') (hok : call.Ok data)
    (hrunning : call.result = none) :
    call'.left data + 1 ≤ call.left data + if outcome.idle then 1 else 0 := by
  have hlt := hok.total_lt hrunning
  have hleft : call.left data = data.size - call.total := if_pos hrunning
  cases hwrote with
  | interrupted => simp [WriteOutcome.idle]
  | zero =>
      rw [hleft]
      simp [WriteCall.left]
      omega
  | failed =>
      rw [hleft]
      simp [WriteCall.left]
      omega
  | some hpos hroom =>
      rw [hleft]
      simp only [WriteCall.left, WriteOutcome.idle]
      split <;> simp <;> omega

/-! ## Every call -/

theorem writeAllCall_inductive (hdata : Readable data) (hsize : data.size ≤ sizeMax) :
    (writeAllCall data).Inductive (WriteCall.Ok data) where
  init := by
    rintro call rfl
    exact WriteCall.ok_start hdata
  step := by
    intro call outcome call' hok hstep
    obtain ⟨hrunning, hwrote⟩ := WriteCall.step_wrote hdata hsize hok hstep
    exact hwrote.ok hok hrunning

/-- Why a call has failed: its last `write`. -/
theorem writeAllCall_failed (hdata : Readable data) (hsize : data.size ≤ sizeMax)
    {outcomes : List WriteOutcome} {e : Errno}
    (hrun : (writeAllCall data).Run (.start data) outcomes call)
    (hfailed : call.result = some (.error e)) :
    ∃ before last, outcomes = before ++ [last] ∧
      ((last = .zero ∧ e = .eio) ∨ last = .failed e) := by
  cases hrun with
  | nil =>
      exfalso
      simp only [WriteCall.start] at hfailed
      split at hfailed
      · next hnull => exact hnull.2 (hdata hnull.1)
      · unfold writeTest at hfailed
        split at hfailed <;> cases hfailed
  | @snoc before t last _ hrun hstep =>
      refine ⟨before, last, rfl, ?_⟩
      have hok := (writeAllCall_inductive hdata hsize).run (WriteCall.ok_start hdata) hrun
      obtain ⟨hrunning, hwrote⟩ := WriteCall.step_wrote hdata hsize hok hstep
      cases hwrote with
      | interrupted => rw [hrunning] at hfailed; cases hfailed
      | zero => cases hfailed; exact .inl ⟨rfl, rfl⟩
      | failed => cases hfailed; exact .inr rfl
      | some hpos hroom =>
          simp only [writeTest] at hfailed
          split at hfailed <;> cases hfailed

/-- An environment in which `write` takes something each time, or is interrupted. -/
def Accepts (data : Span) (kernel : Nat → WriteCall → WriteOutcome) : Prop :=
  ∀ n (call : WriteCall), call.total < data.size → kernel n call = .interrupted ∨
    ∃ count, kernel n call = .wrote count ∧ 0 < count ∧ count ≤ data.size - call.total

variable {kernel : Nat → WriteCall → WriteOutcome} {n : Nat}

/-- A call that has not returned can go on, whatever the kernel takes. -/
theorem Accepts.answers (haccepts : Accepts data kernel) (hdata : Readable data)
    (hok : call.Ok data) (hrunning : call.result = none) :
    ∃ call', call.step data (kernel n call) = some call' := by
  unfold WriteCall.step
  rw [hrunning]
  rcases haccepts n call (hok.total_lt hrunning) with h | ⟨count, h, hcount⟩
  · rw [h]
    exact ⟨_, rfl⟩
  · rw [h]
    have hpossible : 0 < count ∧ count ≤ sizeSub data.data.length call.total := by
      rw [← hdata.size_eq, sizeSub_eq hok.total_le]
      exact hcount
    simp only [writeAll, if_pos hpossible]
    exact ⟨_, rfl⟩

/-- Such a kernel makes no call fail. -/
theorem Accepts.not_failed (haccepts : Accepts data kernel) (hok : call.Ok data)
    (hrunning : call.result = none) (hwrote : Wrote data call (kernel n call) call') (e : Errno) :
    call'.result ≠ some (.error e) := by
  rcases haccepts n call (hok.total_lt hrunning) with h | ⟨count, h, -⟩
  · rw [h] at hwrote
    cases hwrote
    simp [hrunning]
  · rw [h] at hwrote
    cases hwrote
    simp only [writeTest]
    split <;> simp

/-- **Each byte is delivered once and in order.** Whatever `write` returns, the kernel has taken a
front of the data; the function returns 0 only when that is all of it, and -1 only behind a `write`
that returned 0 or failed with something left to send. When `write` keeps taking something and is
interrupted finitely often, the function returns 0. -/
theorem writeAll_delivers (data : Span) (hdata : Readable data) (hsize : data.size ≤ sizeMax) :
    (∀ outcomes call, (writeAllCall data).Run (.start data) outcomes call →
      call.accepted <+: data.data ∧
      (call.result = some (.ok ()) → call.accepted = data.data) ∧
      ∀ e, call.result = some (.error e) →
        call.accepted.length < data.data.length ∧
        ∃ before last, outcomes = before ++ [last] ∧
          ((last = .zero ∧ e = .eio) ∨ last = .failed e)) ∧
    ∀ kernel, Accepts data kernel → (∃ bound, ∀ n call, bound ≤ n → kernel n call ≠ .interrupted) →
      ∃ n call, StepSystem.play (WriteCall.step data) kernel (.start data) n = some call ∧
        call.result = some (.ok ()) := by
  have hinductive := writeAllCall_inductive hdata hsize
  constructor
  · intro outcomes call hrun
    have hok := hinductive.run (WriteCall.ok_start hdata) hrun
    rw [hok.accepted]
    refine ⟨List.take_prefix _ _, ?_, ?_⟩
    · intro hdone
      rw [← hok.done_iff] at hdone
      rw [hdone, hdata.size_eq, List.take_length]
    · intro e hfailed
      refine ⟨?_, writeAllCall_failed hdata hsize hrun hfailed⟩
      have hne : call.total ≠ data.size := by
        rw [Ne, hok.done_iff, hfailed]
        simp
      have hle := hok.total_le
      rw [List.length_take, ← hdata.size_eq]
      omega
  · rintro kernel haccepts ⟨bound, hbound⟩
    have hidle : ∀ n call, bound ≤ n → (kernel n call).idle = false := by
      intro n call hn
      have := hbound n call hn
      cases h : kernel n call <;> simp_all [WriteOutcome.idle]
    have hmeasure : ∀ call outcome call', WriteCall.Ok data call →
        call.step data outcome = some call' →
        call'.left data + 1 ≤ call.left data + if outcome.idle then 1 else 0 := by
      intro call outcome call' hok hstep
      obtain ⟨hrunning, hwrote⟩ := WriteCall.step_wrote hdata hsize hok hstep
      exact hwrote.left_lt hok hrunning
    obtain ⟨n, call, hplay, hfinal⟩ := hinductive.returns
      (fun call => call.result.isSome) hmeasure hidle
      (fun n call hok hfinal => haccepts.answers hdata hok (by simpa using hfinal))
      (WriteCall.ok_start hdata)
    refine ⟨n, call, hplay, ?_⟩
    -- no step on the way fails
    have hgood : WriteCall.Ok data call ∧ ∀ e, call.result ≠ some (.error e) := by
      refine StepSystem.play_keeps (P := fun call => WriteCall.Ok data call ∧
        ∀ e, call.result ≠ some (.error e)) ⟨WriteCall.ok_start hdata, ?_⟩ ?_ hplay
      · intro e hfailed
        obtain ⟨before, last, hsplit, -⟩ := writeAllCall_failed hdata hsize .nil hfailed
        simp at hsplit
      · rintro n call call' ⟨hok, -⟩ hstep
        obtain ⟨hrunning, hwrote⟩ := WriteCall.step_wrote hdata hsize hok hstep
        exact ⟨hwrote.ok hok hrunning, haccepts.not_failed hok hrunning hwrote⟩
    cases hresult : call.result with
    | none => rw [hresult] at hfinal; cases hfinal
    | some result =>
        cases result with
        | ok _ => rfl
        | error e => exact absurd hresult (hgood.2 e)

/-- Three bytes, of which the kernel takes one at a time, with an interruption in front. -/
theorem writeAll_delivers_bytewise : ∃ n call,
    StepSystem.play (WriteCall.step (.bytes [1, 2, 3]))
      (fun n _ => if n = 0 then .interrupted else .wrote 1) (.start (.bytes [1, 2, 3])) n =
        some call ∧ call.result = some (.ok ()) := by
  refine (writeAll_delivers (.bytes [1, 2, 3]) (by simp [Readable, Span.isNull]) (by decide)).2
    (fun n _ => if n = 0 then .interrupted else .wrote 1) ?_ ⟨1, ?_⟩
  · intro n call hlt
    by_cases hn : n = 0
    · exact .inl (if_pos hn)
    · exact .inr ⟨1, if_neg hn, Nat.one_pos, by omega⟩
  · intro n call hn
    simp [Nat.ne_of_gt hn]

end WireCommand.Client
