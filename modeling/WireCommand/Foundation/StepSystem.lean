import Mathlib.Data.List.Basic
import Mathlib.Logic.Relation

/-!
# Step systems

A program that runs against an uncontrolled environment is a **step system**: a set of initial
states and a relation `s —e→ s'`, where the event `e` records everything the environment chose
(the result of a system call, whether an allocation succeeded, which thread moved).

* `Run` is a finite run, built by adding steps at its end, so that an induction on it sees the last
  step with an arbitrary run before it.
* `Inductive` packages the one induction every safety proof makes: a predicate that holds initially
  and is kept by every step holds of every reachable state (`Inductive.reachable`).
* `restrict` keeps the steps that meet a condition. An assumption about the environment, or a
  condition under which a property is claimed, is a restriction: a run of the restricted system
  is a run of the system all of whose steps meet it.
-/

namespace Foundation

/-- Initial states and labelled steps. -/
structure StepSystem (σ ε : Type) where
  init : σ → Prop
  step : σ → ε → σ → Prop

namespace StepSystem

variable {σ ε : Type} {T : StepSystem σ ε}

/-- The step system of a partial step function: `none` says that the event cannot happen. -/
def ofFn (init : σ → Prop) (next : σ → ε → Option σ) : StepSystem σ ε where
  init := init
  step s e s' := next s e = some s'

@[simp] theorem ofFn_step {init : σ → Prop} {next : σ → ε → Option σ} {s s' : σ} {e : ε} :
    (ofFn init next).step s e s' = (next s e = some s') := rfl

/-- `T.Run s es s'`: the events `es` lead from `s` to `s'`. -/
inductive Run (T : StepSystem σ ε) (s : σ) : List ε → σ → Prop
  | nil : Run T s [] s
  | snoc {es t e t'} : Run T s es t → T.step t e t' → Run T s (es ++ [e]) t'

/-- A state some run from an initial state ends in. -/
def Reachable (T : StepSystem σ ε) (s : σ) : Prop := ∃ s₀ es, T.init s₀ ∧ T.Run s₀ es s

theorem Reachable.of_init {s : σ} (h : T.init s) : T.Reachable s := ⟨s, [], h, .nil⟩

theorem Reachable.next {s s' : σ} {e : ε} (h : T.Reachable s) (hs : T.step s e s') :
    T.Reachable s' := by
  obtain ⟨s₀, es, h₀, hr⟩ := h
  exact ⟨s₀, es ++ [e], h₀, hr.snoc hs⟩

/-- A run step by step, for evaluating a concrete sequence of events. -/
def exec (next : σ → ε → Option σ) (s : σ) : List ε → Option σ
  | [] => some s
  | e :: es => (next s e).bind fun s' => exec next s' es

/-- A run of one step. -/
theorem Run.one {s s' : σ} {e : ε} (h : T.step s e s') : T.Run s [e] s' := Run.nil.snoc h

theorem Run.append {s t u : σ} {es fs : List ε} (h : T.Run s es t) (h' : T.Run t fs u) :
    T.Run s (es ++ fs) u := by
  induction h' with
  | nil => simpa using h
  | snoc _ hs ih => rw [← List.append_assoc]; exact ih.snoc hs

/-- What a run reaches from a reachable state is reachable. -/
theorem Reachable.run {s s' : σ} {es : List ε} (h : T.Reachable s) (hr : T.Run s es s') :
    T.Reachable s' := by
  obtain ⟨s₀, es₀, hinit, hrun⟩ := h
  exact ⟨s₀, es₀ ++ es, hinit, hrun.append hr⟩

theorem run_of_exec {init : σ → Prop} {next : σ → ε → Option σ} {s s' : σ} {es : List ε}
    (h : exec next s es = some s') : (ofFn init next).Run s es s' := by
  induction es generalizing s with
  | nil => cases h; exact .nil
  | cons e es ih =>
      simp only [exec] at h
      obtain ⟨t, ht, h⟩ := Option.bind_eq_some_iff.mp h
      have hfirst : (ofFn init next).Run s [e] t := .one ht
      exact hfirst.append (ih h)

/-- A concrete sequence of events reaches a state that passes a test, if evaluating it does. -/
theorem exists_reachable {init : σ → Prop} {next : σ → ε → Option σ} {s : σ} {es : List ε}
    {test : σ → Bool} (hinit : init s) (h : (exec next s es).any test = true) :
    ∃ t, (ofFn init next).Reachable t ∧ test t = true := by
  cases hexec : exec next s es with
  | none => rw [hexec] at h; cases h
  | some t =>
      rw [hexec] at h
      exact ⟨t, ⟨s, es, hinit, run_of_exec hexec⟩, h⟩

/-! ## Invariants -/

/-- A predicate that holds initially and is kept by every step. -/
structure Inductive (T : StepSystem σ ε) (P : σ → Prop) : Prop where
  init : ∀ s, T.init s → P s
  step : ∀ s e s', P s → T.step s e s' → P s'

theorem Inductive.run {P : σ → Prop} (h : T.Inductive P) {s s' : σ} {es : List ε}
    (hs : P s) (hr : T.Run s es s') : P s' := by
  induction hr with
  | nil => exact hs
  | snoc _ hstep ih => exact h.step _ _ _ ih hstep

/-- **The invariant rule.** -/
theorem Inductive.reachable {P : σ → Prop} (h : T.Inductive P) {s : σ} (hr : T.Reachable s) :
    P s := by
  obtain ⟨s₀, es, h₀, hr⟩ := hr
  exact h.run (h.init s₀ h₀) hr

/-- To be reachable is itself an invariant. -/
theorem reachable_inductive (T : StepSystem σ ε) : T.Inductive T.Reachable where
  init _ hs := .of_init hs
  step _ _ _ hs hstep := hs.next hstep

/-! ## Restriction -/

/-- The steps of `T` that meet `C`. -/
def restrict (T : StepSystem σ ε) (C : σ → ε → Prop) : StepSystem σ ε where
  init := T.init
  step s e s' := T.step s e s' ∧ C s e

theorem Run.of_restrict {C : σ → ε → Prop} {s s' : σ} {es : List ε}
    (h : (T.restrict C).Run s es s') : T.Run s es s' := by
  induction h with
  | nil => exact .nil
  | snoc _ hstep ih => exact ih.snoc hstep.1

theorem Reachable.of_restrict {C : σ → ε → Prop} {s : σ} (h : (T.restrict C).Reachable s) :
    T.Reachable s := by
  obtain ⟨s₀, es, hinit, hrun⟩ := h
  exact ⟨s₀, es, hinit, hrun.of_restrict⟩

/-- An invariant of `T` is one of its restrictions. -/
theorem Inductive.restrict {P : σ → Prop} (h : T.Inductive P) (C : σ → ε → Prop) :
    (T.restrict C).Inductive P where
  init := h.init
  step s e s' hs hstep := h.step s e s' hs hstep.1

/-- A step function that takes only the steps that meet a decidable condition. -/
def guard (C : σ → ε → Bool) (next : σ → ε → Option σ) (s : σ) (e : ε) : Option σ :=
  if C s e then next s e else none

theorem run_restrict_of_exec {init : σ → Prop} {next : σ → ε → Option σ} {C : σ → ε → Bool}
    {s s' : σ} {es : List ε} (h : exec (guard C next) s es = some s') :
    ((ofFn init next).restrict fun s e => C s e = true).Run s es s' := by
  have hrun : (ofFn init (guard C next)).Run s es s' := run_of_exec h
  clear h
  induction hrun with
  | nil => exact .nil
  | snoc _ hstep ih =>
      rw [ofFn_step, guard] at hstep
      split at hstep
      · next hcond => exact ih.snoc ⟨hstep, hcond⟩
      · cases hstep

/-- The same for a restricted system as `exists_reachable`: evaluating the events checks the
condition at each of them. -/
theorem exists_reachable_restrict {init : σ → Prop} {next : σ → ε → Option σ}
    {C : σ → ε → Bool} {s : σ} {es : List ε} {test : σ → Bool} (hinit : init s)
    (h : (exec (guard C next) s es).any test = true) :
    ∃ t, ((ofFn init next).restrict fun s e => C s e = true).Reachable t ∧ test t = true := by
  rw [Option.any_eq_true] at h
  obtain ⟨t, hexec, htest⟩ := h
  exact ⟨t, ⟨s, es, hinit, run_restrict_of_exec hexec⟩, htest⟩

end StepSystem

end Foundation
