import Mathlib.Logic.Function.Basic
import WireCommand.Foundation.StepSystem

/-!
# Traces, simulations and families

What a program does can be told without its states: a **label** says what the outside sees of a
step, which may be nothing or several things, and a **trace** is what it sees of a run.

* `Simulation` is a relation between the states of a program and those of a specification under
  which every step of the program is a run of the specification with the same label. By
  `Simulation.trace` every trace of the program then is a run of the specification.
* `family` is any number of copies of one system side by side, each with a name. They do not know of
  each other: a run of the family is a run of each member, with the actions that bear its name
  (`Run.member`).
-/

namespace Foundation

namespace StepSystem

variable {σ ε τ α κ : Type} {T : StepSystem σ ε} {A : StepSystem τ α} {label : σ → ε → σ → List α}

/-! ## Traces -/

/-- `T.Trace label s as s'`: some run leads from `s` to `s'`, and the outside sees `as` of it. -/
inductive Trace (T : StepSystem σ ε) (label : σ → ε → σ → List α) (s : σ) : List α → σ → Prop
  | nil : Trace T label s [] s
  | snoc {as t e t'} : Trace T label s as t → T.step t e t' →
      Trace T label s (as ++ label t e t') t'

theorem Trace.append {s t u : σ} {as bs : List α} (h : T.Trace label s as t)
    (h' : T.Trace label t bs u) : T.Trace label s (as ++ bs) u := by
  induction h' with
  | nil => simpa using h
  | snoc _ hstep ih => rw [← List.append_assoc]; exact ih.snoc hstep

/-- A run step by step with its trace, for evaluating a concrete sequence of events. -/
def execTrace (next : σ → ε → Option σ) (label : σ → ε → σ → List α) (s : σ) :
    List ε → Option (List α × σ)
  | [] => some ([], s)
  | e :: es =>
      (next s e).bind fun s' =>
        (execTrace next label s' es).map fun p => (label s e s' ++ p.1, p.2)

theorem trace_of_execTrace {init : σ → Prop} {next : σ → ε → Option σ} {s s' : σ} {es : List ε}
    {as : List α} (h : execTrace next label s es = some (as, s')) :
    (ofFn init next).Trace label s as s' := by
  induction es generalizing s as with
  | nil => cases h; exact .nil
  | cons e es ih =>
      simp only [execTrace] at h
      obtain ⟨t, ht, h⟩ := Option.bind_eq_some_iff.mp h
      obtain ⟨⟨bs, u⟩, hrest, heq⟩ := Option.map_eq_some_iff.mp h
      cases heq
      have hnil : (ofFn init next).Trace label s [] s := .nil
      exact (hnil.snoc ht).append (ih hrest)

/-- A concrete sequence of events has a trace and an end that pass a test, if evaluating it does. -/
theorem exists_trace {init : σ → Prop} {next : σ → ε → Option σ} {s : σ} {es : List ε}
    {test : List α → σ → Bool}
    (h : (execTrace next label s es).any (fun p => test p.1 p.2) = true) :
    ∃ as t, (ofFn init next).Trace label s as t ∧ test as t = true := by
  cases hexec : execTrace next label s es with
  | none => rw [hexec] at h; cases h
  | some p =>
      rw [hexec] at h
      exact ⟨p.1, p.2, trace_of_execTrace hexec, h⟩

/-! ## Simulations -/

/-- Every step of `T` is a run of `A` with the step's label. -/
structure Simulation (T : StepSystem σ ε) (A : StepSystem τ α) (label : σ → ε → σ → List α)
    (R : σ → τ → Prop) : Prop where
  init : ∀ s, T.init s → ∃ t, A.init t ∧ R s t
  step : ∀ s t e s', R s t → T.step s e s' → ∃ t', A.Run t (label s e s') t' ∧ R s' t'

/-- **The traces of the program are runs of the specification.** -/
theorem Simulation.trace {R : σ → τ → Prop} (h : Simulation T A label R) {s s' : σ} {t : τ}
    {as : List α} (hR : R s t) (htrace : T.Trace label s as s') :
    ∃ t', A.Run t as t' ∧ R s' t' := by
  induction htrace with
  | nil => exact ⟨t, .nil, hR⟩
  | snoc _ hstep ih =>
      obtain ⟨u, hrun, hu⟩ := ih
      obtain ⟨t', hlast, ht'⟩ := h.step _ _ _ _ hu hstep
      exact ⟨t', hrun.append hlast, ht'⟩

/-! ## Families -/

section Family

variable [DecidableEq κ]

/-- A copy of the system for each name. -/
def family (κ : Type) [DecidableEq κ] (A : StepSystem τ α) : StepSystem (κ → τ) (κ × α) where
  init t := ∀ c, A.init (t c)
  step t a t' := ∃ x, A.step (t a.1) a.2 x ∧ t' = Function.update t a.1 x

/-- The actions that bear a name. -/
def member (c : κ) (as : List (κ × α)) : List α :=
  as.filterMap fun a => if a.1 = c then some a.2 else none

@[simp] theorem member_append (c : κ) (as bs : List (κ × α)) :
    member c (as ++ bs) = member c as ++ member c bs := List.filterMap_append

/-- **A run of the family is a run of each member.** -/
theorem Run.member {t t' : κ → τ} {as : List (κ × α)} (h : (family κ A).Run t as t') (c : κ) :
    A.Run (t c) (StepSystem.member c as) (t' c) := by
  induction h with
  | nil => exact .nil
  | @snoc as u a u' _ hstep ih =>
      obtain ⟨x, hx, rfl⟩ := hstep
      obtain ⟨d, a⟩ := a
      rw [member_append]
      by_cases hd : d = c
      · subst hd
        simpa [StepSystem.member] using ih.append (Run.one hx)
      · simpa [StepSystem.member, hd, Function.update_of_ne (Ne.symm hd)] using ih

/-- A run of one member is a run of the family. -/
theorem family_run {t : κ → τ} {c : κ} {x : τ} {as : List α} (h : A.Run (t c) as x) :
    (family κ A).Run t (as.map fun a => (c, a)) (Function.update t c x) := by
  induction h with
  | nil =>
      rw [Function.update_eq_self]
      exact .nil
  | @snoc as y a y' _ hstep ih =>
      rw [List.map_append]
      refine ih.snoc ⟨y', ?_, ?_⟩
      · simpa using hstep
      · simp

end Family

end StepSystem

end Foundation
