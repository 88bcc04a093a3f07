import Mathlib.Data.Fintype.Basic
import Mathlib.Data.Finset.Card
import WireCommand.Foundation.StepSystem

/-!
# Bounded runs

A measure that every step lowers bounds the length of runs. Programs that talk to an environment do
not have one, since a call may be interrupted and has to be made again; but each such step raises
the measure by a little only, and `Inductive.length_le` bounds a run by the measure and the number
of them.

Where several parties move units of some work, the measure is what is still to be moved, weighted,
and how far each party is from its next move. `Pays` is what a step of one party has to do, and
`Pays.measure` what that means for the whole. Where the measure counts the entries of a table, a step
that changes one of them is `card_filter_update`.
-/

namespace Foundation

namespace StepSystem

variable {σ ε : Type} {T : StepSystem σ ε}

/-- **The counting rule.** Once a property holds that no step ends, the steps of interest lower a
measure and no step raises it, except that some steps may raise it by a little. Then a run has no more
steps of interest than the measure it starts with, but for those. -/
theorem count_le {P : σ → Prop} {μ : σ → Nat} {counts idle : ε → Bool} {k : Nat}
    (hstep : ∀ s e s', P s → T.step s e s' →
      P s' ∧ μ s' + (if counts e then 1 else 0) ≤ μ s + if idle e then k else 0)
    {s s' : σ} {es : List ε} (hs : P s) (hr : T.Run s es s') :
    P s' ∧ es.countP counts + μ s' ≤ μ s + k * es.countP idle := by
  induction hr with
  | nil => simpa using hs
  | @snoc es t e t' hrun hlast ih =>
      obtain ⟨ht, hle⟩ := ih
      obtain ⟨ht', hone⟩ := hstep t e t' ht hlast
      refine ⟨ht', ?_⟩
      rw [List.countP_append, List.countP_append, List.countP_singleton, List.countP_singleton,
        Nat.mul_add]
      cases hidle : idle e <;> simp only [hidle, if_true, if_false, Bool.false_eq_true] at hone ⊢ <;>
        omega

/-- **The bound rule**: when every step is of interest. Then a run is no longer than the measure it
starts with, but for the steps that raise it. -/
theorem Inductive.length_le {P : σ → Prop} (h : T.Inductive P) {μ : σ → Nat} {idle : ε → Bool}
    {k : Nat} (hstep : ∀ s e s', P s → T.step s e s' → μ s' + 1 ≤ μ s + if idle e then k else 0)
    {s s' : σ} {es : List ε} (hs : P s) (hr : T.Run s es s') :
    es.length + μ s' ≤ μ s + k * es.countP idle := by
  have hcount : P s' ∧ es.countP (fun _ => true) + μ s' ≤ μ s + k * es.countP idle :=
    count_le (fun s e s' hs hlast => ⟨h.step s e s' hs hlast, hstep s e s' hs hlast⟩) hs hr
  rw [List.countP_true] at hcount
  exact hcount.2

end StepSystem

/-! ## Entries of a table -/

/-- An entry of a table that is counted is replaced by one that is not. -/
theorem card_filter_update {ι β : Type} [Fintype ι] [DecidableEq ι] (p : β → Prop)
    [DecidablePred p] {f : ι → β} {i : ι} {b : β} (hi : p (f i)) (hb : ¬ p b) :
    (Finset.univ.filter fun j => p (Function.update f i b j)).card + 1 =
      (Finset.univ.filter fun j => p (f j)).card := by
  have herase : (Finset.univ.filter fun j => p (Function.update f i b j)) =
      (Finset.univ.filter fun j => p (f j)).erase i := by
    ext j
    simp only [Finset.mem_filter, Finset.mem_univ, true_and, Finset.mem_erase]
    by_cases hj : j = i
    · subst hj
      simp [hb]
    · simp [hj]
  rw [herase]
  exact Finset.card_erase_add_one (by simpa using hi)

/-! ## Work that is shared -/

/-- A party was `rank` steps away from its next move and had moved `moved` units. A step **pays**
when it moves some, and is then at most `k` steps further away from the next move, or when it comes
closer; an idle step may lead `k` steps back. -/
def Pays (k rank moved rank' moved' : Nat) (idle : Bool) : Prop :=
  rank' + 1 + (k + 1) * moved ≤ rank + (k + 1) * moved' + if idle then k else 0

variable {k rank moved rank' moved' : Nat} {idle : Bool}

/-- A step that moves nothing. -/
theorem pays_of_still (hmoved : moved' = moved)
    (hrank : rank' + 1 ≤ rank + if idle then k else 0) : Pays k rank moved rank' moved' idle := by
  unfold Pays
  rw [hmoved]
  omega

/-- A step that moves something. -/
theorem pays_of_moved (hmoved : moved < moved') (hrank : rank' ≤ rank + k) :
    Pays k rank moved rank' moved' idle := by
  unfold Pays
  have hweight : (k + 1) * (moved + 1) ≤ (k + 1) * moved' := Nat.mul_le_mul_left _ hmoved
  rw [Nat.mul_add, Nat.mul_one] at hweight
  omega

/-- **A step that pays lowers the measure**, whatever the others have moved. -/
theorem Pays.measure (h : Pays k rank moved rank' moved' idle) {work others : Nat}
    (hbefore : moved + others ≤ work) (hafter : moved' + others ≤ work) :
    (k + 1) * (work - (moved' + others)) + rank' + 1 ≤
      (k + 1) * (work - (moved + others)) + rank + if idle then k else 0 := by
  obtain ⟨left, rfl⟩ := Nat.exists_eq_add_of_le hbefore
  obtain ⟨left', hleft'⟩ := Nat.exists_eq_add_of_le hafter
  have hweight := congrArg ((k + 1) * ·) hleft'
  simp only [Nat.mul_add] at hweight
  unfold Pays at h
  rw [Nat.add_sub_cancel_left, hleft', Nat.add_sub_cancel_left]
  omega

end Foundation
