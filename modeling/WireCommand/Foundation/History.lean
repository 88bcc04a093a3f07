import WireCommand.Foundation.Fairness

/-!
# Histories

A condition on a schedule is about the order in which things happen, and the state of a program need
not remember it. `watch` puts a record beside the program that no step of it reads: every step of the
program is noted, and none is prevented. A condition on the schedule then is a condition on the record,
and a restriction like any other.

What is beside a program takes nothing away from it. `Projects` says that once for all systems that are
another one with something added: their runs, reachable states, invariants and executions are those of
the system inside.
-/

namespace Foundation

namespace StepSystem

variable {σ ε τ α β : Type} {T : StepSystem σ ε} {U : StepSystem τ α}

/-! ## Projections -/

/-- Every step of `T` is a step of `U`, seen through `f` and `g`. -/
structure Projects (T : StepSystem σ ε) (U : StepSystem τ α) (f : σ → τ) (g : ε → α) : Prop where
  init : ∀ s, T.init s → U.init (f s)
  step : ∀ s e s', T.step s e s' → U.step (f s) (g e) (f s')

namespace Projects

variable {f : σ → τ} {g : ε → α} (h : Projects T U f g)
include h

theorem run {s s' : σ} {es : List ε} (hr : T.Run s es s') : U.Run (f s) (es.map g) (f s') := by
  induction hr with
  | nil => exact .nil
  | snoc _ hstep ih =>
      rw [List.map_append]
      exact ih.snoc (h.step _ _ _ hstep)

theorem reachable {s : σ} (hs : T.Reachable s) : U.Reachable (f s) := by
  obtain ⟨s₀, es, hinit, hrun⟩ := hs
  exact ⟨f s₀, es.map g, h.init s₀ hinit, h.run hrun⟩

/-- An execution of the system inside. -/
def execution (x : T.Execution) : U.Execution where
  state n := f (x.state n)
  event n := g (x.event n)
  step n := h.step _ _ _ (x.step n)

/-- **The invariant rule for what is beside a program**: an invariant of the program may be used to
show what is added. -/
theorem inductive_of {P : τ → Prop} {Q : σ → Prop} (hP : U.Inductive P)
    (hinit : ∀ s, T.init s → Q s) (hstep : ∀ s e s', P (f s) → Q s → T.step s e s' → Q s') :
    T.Inductive fun s => P (f s) ∧ Q s where
  init s hs := ⟨hP.init _ (h.init s hs), hinit s hs⟩
  step s e s' hs hs' := ⟨hP.step _ _ _ hs.1 (h.step s e s' hs'), hstep s e s' hs.1 hs.2 hs'⟩

end Projects

/-- Fewer steps. -/
theorem Projects.restrict {f : σ → τ} {g : ε → α} (h : Projects T U f g) (C : σ → ε → Prop) :
    Projects (T.restrict C) U f g where
  init := h.init
  step s e s' hstep := h.step s e s' hstep.1

/-- A step function that checks a condition takes the steps that meet it. -/
theorem projects_guard (init : σ → Prop) (next : σ → ε → Option σ) (C : σ → ε → Bool) :
    Projects (ofFn init (guard C next)) ((ofFn init next).restrict fun s e => C s e = true) id id where
  init _ hs := hs
  step s e s' hstep := by
    rw [ofFn_step, guard] at hstep
    split at hstep
    · next hcond => exact ⟨hstep, hcond⟩
    · cases hstep

/-! ## Records -/

/-- The system with a record beside it, which begins with `b₀` and in which every step is noted. -/
def watch (T : StepSystem σ ε) (b₀ : β) (note : σ → ε → β → β) : StepSystem (σ × β) ε where
  init p := T.init p.1 ∧ p.2 = b₀
  step p e p' := T.step p.1 e p'.1 ∧ p'.2 = note p.1 e p.2

variable {b₀ : β} {note : σ → ε → β → β}

theorem projects_watch (T : StepSystem σ ε) (b₀ : β) (note : σ → ε → β → β) :
    Projects (T.watch b₀ note) T Prod.fst id where
  init _ hs := hs.1
  step _ _ _ hstep := hstep.1

/-- The record prevents nothing. -/
theorem Reachable.watch {s : σ} (h : T.Reachable s) (b₀ : β) (note : σ → ε → β → β) :
    ∃ b, (T.watch b₀ note).Reachable (s, b) := by
  obtain ⟨s₀, es, hinit, hrun⟩ := h
  induction hrun with
  | nil => exact ⟨b₀, .of_init ⟨hinit, rfl⟩⟩
  | snoc _ hstep ih =>
      obtain ⟨b, hb⟩ := ih
      exact ⟨_, hb.next ⟨hstep, rfl⟩⟩

/-- A run in which nothing happens that changes the record. -/
theorem Run.watch_of_unnoted {C : σ → ε → Prop} {D : σ × β → ε → Prop} {s s' : σ} {b : β}
    {es : List ε} (hnote : ∀ s e, C s e → note s e b = b ∧ D (s, b) e)
    (h : (T.restrict C).Run s es s') : ((T.watch b₀ note).restrict D).Run (s, b) es (s', b) := by
  induction h with
  | nil => exact .nil
  | snoc _ hstep ih =>
      obtain ⟨hsame, hD⟩ := hnote _ _ hstep.2
      exact ih.snoc ⟨⟨hstep.1, hsame.symm⟩, hD⟩

end StepSystem

end Foundation
