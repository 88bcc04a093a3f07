import Mathlib.Logic.Function.Iterate
import Mathlib.Order.Nat
import Mathlib.Tactic.Choose
import WireCommand.Foundation.StepSystem

/-!
# Fair executions

That something happens at last is a statement about infinite executions, and about the scheduler: a
party that can move and never does is not the program's fault. `Execution.Fair` is weak fairness for
the events of one party, and the rules are the parts of a liveness proof:

* `Execution.finally_not` says that what a measure pays for stops happening;
* `Execution.settles` says that what can only shrink comes to rest;
* `Execution.stays` says that a property no step ends holds from some time on, which is what a fair
  party needs to be able to move for ever.

A finite run extends to an execution when steps can go on for ever behind it
(`exists_execution_after`).
-/

namespace Foundation

namespace StepSystem

variable {σ ε : Type} {T : StepSystem σ ε}

/-- An infinite run. -/
structure Execution (T : StepSystem σ ε) where
  state : Nat → σ
  event : Nat → ε
  step : ∀ n, T.step (state n) (event n) (state (n + 1))

namespace Execution

variable (x : T.Execution)

/-- **Weak fairness**: if an event of `A` could happen at all times from some time on, one happens. -/
def Fair (A : ε → Prop) : Prop :=
  ∀ n, (∀ m, n ≤ m → ∃ e s', A e ∧ T.step (x.state m) e s') → ∃ m, n ≤ m ∧ A (x.event m)

theorem reachable (hinit : T.init (x.state 0)) (n : Nat) : T.Reachable (x.state n) := by
  induction n with
  | zero => exact .of_init hinit
  | succ n ih => exact ih.next (x.step n)

/-- What no step ends from some time on. -/
theorem stays {P : σ → Prop} {n : Nat}
    (hstep : ∀ m, n ≤ m → P (x.state m) → P (x.state (m + 1))) (hn : P (x.state n)) {m : Nat}
    (hm : n ≤ m) : P (x.state m) := by
  induction m, hm using Nat.le_induction with
  | base => exact hn
  | succ m hm ih => exact hstep m hm ih

/-- **What a measure pays for stops happening.** -/
theorem finally_not (counts : ε → Bool) (μ : σ → Nat) {n : Nat}
    (hstep : ∀ m, n ≤ m →
      μ (x.state (m + 1)) + (if counts (x.event m) then 1 else 0) ≤ μ (x.state m)) :
    ∃ N, n ≤ N ∧ ∀ m, N ≤ m → counts (x.event m) = false := by
  -- by induction on the measure: behind the next event that counts it is smaller
  induction hμ : μ (x.state n) using Nat.strong_induction_on generalizing n with
  | _ k ih =>
      by_cases hnever : ∀ m, n ≤ m → counts (x.event m) = false
      · exact ⟨n, le_refl n, hnever⟩
      · obtain ⟨m, hnm, hcounts⟩ : ∃ m, n ≤ m ∧ counts (x.event m) = true := by
          simpa using hnever
        have hle : μ (x.state m) ≤ k :=
          x.stays (P := fun s => μ s ≤ k) (fun i hi h => (Nat.le_of_add_right_le (hstep i hi)).trans h)
            hμ.le hnm
        have hlt := hstep m hnm
        rw [hcounts, if_pos rfl] at hlt
        obtain ⟨N, hN, hrest⟩ := ih (μ (x.state (m + 1))) (by omega)
          (fun i hi => hstep i (by omega)) rfl
        exact ⟨N, by omega, hrest⟩

/-- **What can only shrink comes to rest.** Something is kept track of along the execution. A step
leaves it as it is, and then is a `quiet` one, or makes it smaller. From some time on it stays as it is,
and all steps are quiet. -/
theorem settles {β : Type} (R : σ → β → Prop) (quiet : Nat → β → Prop) (size : β → Nat) {n : Nat}
    {b : β}
    (hstep : ∀ m b, n ≤ m → R (x.state m) b →
      ∃ b', R (x.state (m + 1)) b' ∧ ((b' = b ∧ quiet m b) ∨ size b' < size b))
    (hn : R (x.state n) b) :
    ∃ N b', n ≤ N ∧ ∀ m, N ≤ m → R (x.state m) b' ∧ quiet m b' := by
  induction hsize : size b using Nat.strong_induction_on generalizing n b with
  | _ k ih =>
      by_cases hrests : ∀ m, n ≤ m → R (x.state m) b → R (x.state (m + 1)) b ∧ quiet m b
      · have hR : ∀ m, n ≤ m → R (x.state m) b := fun m =>
          x.stays (P := fun s => R s b) (fun m hm h => (hrests m hm h).1) hn
        exact ⟨n, b, le_refl n, fun m hm => ⟨hR m hm, (hrests m hm (hR m hm)).2⟩⟩
      · -- there is a step at which it shrinks
        push Not at hrests
        obtain ⟨m, hm, hR, hmoves⟩ := hrests
        obtain ⟨b', hR', ⟨rfl, hquiet⟩ | hlt⟩ := hstep m b hm hR
        · exact absurd hquiet (hmoves hR')
        · obtain ⟨N, b'', hN, hrest⟩ := ih (size b') (hsize ▸ hlt)
            (fun i b hi => hstep i b (by omega)) hR' rfl
          exact ⟨N, b'', by omega, hrest⟩

/-- A first step before an execution. -/
def cons {s : σ} {e : ε} (h : T.step s e (x.state 0)) : T.Execution where
  state
    | 0 => s
    | n + 1 => x.state n
  event
    | 0 => e
    | n + 1 => x.event n
  step
    | 0 => h
    | n + 1 => x.step n

end Execution

/-- An execution, from steps that go on for ever. -/
theorem exists_execution_of_keeps {init : σ → Prop} {next : σ → ε → Option σ} {P : σ → Prop}
    {A : ε → Prop} (hstep : ∀ s, P s → ∃ e s', A e ∧ next s e = some s' ∧ P s') {s : σ} (hs : P s) :
    ∃ x : (ofFn init next).Execution, x.state 0 = s ∧ ∀ m, P (x.state m) ∧ A (x.event m) := by
  choose e s' he hnext hs' using fun s : {s // P s} => hstep s.1 s.2
  let orbit (n : Nat) : {s // P s} := (fun s => ⟨s' s, hs' s⟩)^[n] ⟨s, hs⟩
  refine ⟨⟨fun n => (orbit n).1, fun n => e (orbit n), fun n => ?_⟩, rfl,
    fun m => ⟨(orbit m).2, he _⟩⟩
  have hsucc : orbit (n + 1) = ⟨s' (orbit n), hs' (orbit n)⟩ := Function.iterate_succ_apply' _ _ _
  rw [hsucc]
  exact hnext (orbit n)

/-- A finite run before steps that go on for ever. -/
theorem exists_execution_after {init : σ → Prop} {next : σ → ε → Option σ} {P : σ → Prop}
    {A : ε → Prop} (hstep : ∀ s, P s → ∃ e s', A e ∧ next s e = some s' ∧ P s') {s s' : σ}
    {es : List ε} (h : exec next s es = some s') (hs' : P s') :
    ∃ x : (ofFn init next).Execution,
      (∀ n t, n ≤ es.length → exec next s (es.take n) = some t → x.state n = t) ∧
      ∀ m, es.length ≤ m → P (x.state m) ∧ A (x.event m) := by
  induction es generalizing s with
  | nil =>
      cases h
      obtain ⟨x, hx, hkeeps⟩ := exists_execution_of_keeps hstep hs'
      refine ⟨x, fun n t hn ht => ?_, fun m _ => hkeeps m⟩
      obtain rfl := Nat.le_zero.mp hn
      cases ht
      exact hx
  | cons e es ih =>
      simp only [exec] at h
      obtain ⟨t, ht, h⟩ := Option.bind_eq_some_iff.mp h
      obtain ⟨x, hrun, htail⟩ := ih h
      have hfirst : (ofFn init next).step s e (x.state 0) := by
        rw [hrun 0 t (Nat.zero_le _) rfl]
        exact ht
      refine ⟨x.cons hfirst, fun n t' hn ht' => ?_, fun m hm => ?_⟩
      · cases n with
        | zero =>
            cases ht'
            rfl
        | succ n =>
            rw [List.take_succ_cons, exec, ht] at ht'
            exact hrun n t' (Nat.le_of_succ_le_succ hn) ht'
      · cases m with
        | zero => cases hm
        | succ m => exact htail m (Nat.le_of_succ_le_succ hm)

/-- A run that ends in a state with a step to itself. -/
theorem exists_execution {init : σ → Prop} {next : σ → ε → Option σ} {s s' : σ} {es : List ε}
    {e : ε} (h : exec next s es = some s') (hloop : next s' e = some s') :
    ∃ x : (ofFn init next).Execution,
      (∀ n t, n ≤ es.length → exec next s (es.take n) = some t → x.state n = t) ∧
      ∀ m, es.length ≤ m → x.state m = s' ∧ x.event m = e := by
  have hstep : ∀ t, t = s' → ∃ e' t', e' = e ∧ next t e' = some t' ∧ t' = s' := by
    rintro t rfl
    exact ⟨e, t, rfl, hloop, rfl⟩
  exact exists_execution_after hstep h rfl

end StepSystem

end Foundation
