import WireCommand.Foundation.Measure

/-!
# Environments that answer

Whether a program comes to its end depends on the environment: a call has to return, and it must not
be interrupted for ever. An **environment** is a function that chooses the event of each step when
it has seen the state, and `play` is the run that comes of it.

`Inductive.returns` is the rule for termination. A measure as in `Inductive.length_le` bounds the
runs; an environment that always has an answer, and that interrupts the program only finitely often,
therefore takes it to its end.
-/

namespace Foundation

namespace StepSystem

variable {σ ε : Type} {next : σ → ε → Option σ} {env : Nat → σ → ε} {s t : σ} {n : Nat}

/-- The state after `n` steps against an environment; `none` when it chose an event that cannot
happen. -/
def play (next : σ → ε → Option σ) (env : Nat → σ → ε) (s : σ) : Nat → Option σ
  | 0 => some s
  | n + 1 => (play next env s n).bind fun t => next t (env n t)

/-- The last step of a play. -/
theorem play_succ (h : play next env s (n + 1) = some t) :
    ∃ u, play next env s n = some u ∧ next u (env n u) = some t :=
  Option.bind_eq_some_iff.mp h

/-- What the steps of an environment keep holds along the play. -/
theorem play_keeps {P : σ → Prop} (hs : P s)
    (hstep : ∀ n t t', P t → next t (env n t) = some t' → P t')
    (h : play next env s n = some t) : P t := by
  induction n generalizing t with
  | zero =>
      cases h
      exact hs
  | succ n ih =>
      obtain ⟨u, hplay, hlast⟩ := play_succ h
      exact hstep n u t (ih hplay) hlast

/-- A play is a run. When the environment is idle only in its first `bound` choices, so is the
run. -/
theorem run_of_play (init : σ → Prop) {idle : ε → Bool} {bound : Nat}
    (hidle : ∀ n t, bound ≤ n → idle (env n t) = false) (h : play next env s n = some t) :
    ∃ es, (ofFn init next).Run s es t ∧ es.length = n ∧ es.countP idle ≤ min n bound := by
  induction n generalizing t with
  | zero =>
      cases h
      exact ⟨[], .nil, rfl, Nat.zero_le _⟩
  | succ n ih =>
      obtain ⟨u, hplay, hstep⟩ := play_succ h
      obtain ⟨es, hrun, hlength, hcount⟩ := ih hplay
      refine ⟨es ++ [env n u], hrun.snoc hstep, by simp [hlength], ?_⟩
      rw [List.countP_append, List.countP_singleton]
      by_cases hn : bound ≤ n
      · rw [hidle n u hn, if_neg (by decide)]
        omega
      · split <;> omega

/-- **The termination rule.** Every step lowers the measure, except that idle steps may raise it by
a little. An environment that answers in every state that is not final, and that is idle only
finitely often, leads to a final state. -/
theorem Inductive.returns {init : σ → Prop} {P : σ → Prop} (h : (ofFn init next).Inductive P)
    (final : σ → Bool) {μ : σ → Nat} {idle : ε → Bool} {k bound : Nat}
    (hstep : ∀ s e s', P s → next s e = some s' → μ s' + 1 ≤ μ s + if idle e then k else 0)
    (hidle : ∀ n t, bound ≤ n → idle (env n t) = false)
    (hanswers : ∀ n t, P t → final t = false → ∃ t', next t (env n t) = some t') (hs : P s) :
    ∃ n t, play next env s n = some t ∧ final t = true := by
  by_contra hnever
  -- the play goes on for ever, so it becomes longer than the measure allows
  have hruns : ∀ n, ∃ t, play next env s n = some t := by
    intro n
    induction n with
    | zero => exact ⟨s, rfl⟩
    | succ n ih =>
        obtain ⟨t, ht⟩ := ih
        obtain ⟨es, hrun, -⟩ := run_of_play init hidle ht
        have hfinal : final t = false := by
          apply Bool.eq_false_iff.mpr
          intro hfinal
          exact hnever ⟨n, t, ht, hfinal⟩
        obtain ⟨t', ht'⟩ := hanswers n t (h.run hs hrun) hfinal
        refine ⟨t', ?_⟩
        rw [play, ht]
        exact ht'
  obtain ⟨t, ht⟩ := hruns (μ s + k * bound + 1)
  obtain ⟨es, hrun, hlength, hcount⟩ := run_of_play init hidle ht
  have hbound := h.length_le hstep hs hrun
  have hidles : k * es.countP idle ≤ k * bound := Nat.mul_le_mul_left k (by omega)
  omega

end StepSystem

end Foundation
