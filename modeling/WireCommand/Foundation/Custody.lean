import Mathlib.Logic.Function.Basic
import Mathlib.Tactic.Common

/-!
# Custody of resources

A table gives out names for resources, and gives out a name again once it has been handed back:
descriptors of a process, handles, tickets. A party that hands back a name hands back whatever the
name stands for *now*, so a name that is handed back twice may take away what somebody else has been
given in between.

`Custody` is such a table, with a record of who handed back each resource. `Custody.Sound` says that
the parties of a program keep custody of the resources: what the table knows is owned by exactly one
of them, and what it no longer knows has been handed back exactly once. There is one rule for each
thing a party may do: `Sound.acquire`, `Sound.transfer` and `Sound.release`.
-/

namespace Foundation

/-- A table of names, the parties that handed back each resource, and how often a name was handed
back that stood for nothing. -/
structure Custody (N R P : Type) where
  table : N → Option R
  releasedBy : R → List P
  stray : Nat

namespace Custody

variable {N R P : Type}

/-- No name is in use. -/
def empty : Custody N R P where
  table := fun _ => none
  releasedBy := fun _ => []
  stray := 0

/-- The name stands for the resource from now on. -/
def acquire [DecidableEq N] (K : Custody N R P) (n : N) (r : R) : Custody N R P :=
  { K with table := Function.update K.table n (some r) }

/-- A party hands back a name. -/
def release [DecidableEq N] [DecidableEq R] (K : Custody N R P) (p : P) (n : N) : Custody N R P :=
  match K.table n with
  | some r =>
      { K with
        table := Function.update K.table n none
        releasedBy := Function.update K.releasedBy r (K.releasedBy r ++ [p]) }
  | none => { K with stray := K.stray + 1 }

/-- The parties keep custody: `owns p n r` says that `p` has the name `n` for the resource `r`, and
`issued r` that the resource has been given out at some time. -/
structure Sound (K : Custody N R P) (owns : P → N → R → Prop) (issued : R → Prop) : Prop where
  table_iff : ∀ n r, K.table n = some r ↔ ∃ p, owns p n r
  owner_unique : ∀ {p q n m r}, owns p n r → owns q m r → p = q ∧ n = m
  owned : ∀ {p n r}, owns p n r → issued r ∧ K.releasedBy r = []
  fate : ∀ r, issued r → (∃ p n, owns p n r) ∨ ∃ p, K.releasedBy r = [p]
  fresh : ∀ r, ¬ issued r → K.releasedBy r = []
  stray : K.stray = 0

variable {K : Custody N R P} {owns owns' : P → N → R → Prop} {issued issued' : R → Prop}
  {p q : P} {n m : N} {r r' : R}

theorem sound_empty : (empty : Custody N R P).Sound (fun _ _ _ => False) (fun _ => False) where
  table_iff n r := by simp [empty]
  owner_unique h := h.elim
  owned h := h.elim
  fate r h := h.elim
  fresh r _ := rfl
  stray := rfl

/-- A name in use has one owner, and stands for one resource. -/
theorem Sound.owner_of_name (h : K.Sound owns issued) (hp : owns p n r) (hq : owns q n r') :
    p = q ∧ r = r' := by
  have hr := (h.table_iff n r).mpr ⟨p, hp⟩
  have hr' := (h.table_iff n r').mpr ⟨q, hq⟩
  have heq : r = r' := Option.some.inj (hr.symm.trans hr')
  exact ⟨(h.owner_unique hp (heq ▸ hq)).1, heq⟩

/-- Every name in use has exactly one owner. -/
theorem Sound.exists_unique_owner (h : K.Sound owns issued) (hn : K.table n = some r) :
    ∃! p, owns p n r := by
  obtain ⟨p, hp⟩ := (h.table_iff n r).mp hn
  exact ⟨p, hp, fun q hq => (h.owner_unique hq hp).1⟩

/-- No resource is handed back twice. -/
theorem Sound.released_once (h : K.Sound owns issued) (r : R) :
    K.releasedBy r = [] ∨ ∃ p, K.releasedBy r = [p] := by
  by_cases hr : issued r
  · rcases h.fate r hr with ⟨p, n, hp⟩ | hp
    · exact .inl (h.owned hp).2
    · exact .inr hp
  · exact .inl (h.fresh r hr)

/-- When nobody owns anything, everything has been handed back. -/
theorem Sound.all_released (h : K.Sound owns issued) (hnone : ∀ p n r, ¬ owns p n r) :
    (∀ n, K.table n = none) ∧ ∀ r, issued r → ∃ p, K.releasedBy r = [p] := by
  constructor
  · intro n
    cases hn : K.table n with
    | none => rfl
    | some r =>
        obtain ⟨p, hp⟩ := (h.table_iff n r).mp hn
        exact absurd hp (hnone p n r)
  · intro r hr
    rcases h.fate r hr with ⟨p, n, hp⟩ | hp
    · exact absurd hp (hnone p n r)
    · exact hp

/-! ## Rules -/

/-- What changes neither the owners nor the table. -/
theorem Sound.congr (h : K.Sound owns issued) (howns : ∀ p n r, owns' p n r ↔ owns p n r) :
    K.Sound owns' issued := by
  have : owns' = owns := by
    funext p n r
    exact propext (howns p n r)
  exact this ▸ h

/-- A party is given a name for a new resource. -/
theorem Sound.acquire [DecidableEq N] (h : K.Sound owns issued) (hn : K.table n = none) (hr : ¬ issued r)
    (howns : ∀ q m r', owns' q m r' ↔ owns q m r' ∨ (q = p ∧ m = n ∧ r' = r))
    (hissued : ∀ r', issued' r' ↔ issued r' ∨ r' = r) :
    (K.acquire n r).Sound owns' issued' where
  table_iff := by
    intro m r'
    by_cases hm : m = n
    · subst hm
      have hno : ∀ q, ¬ owns q m r' := by
        intro q hq
        rw [(h.table_iff m r').mpr ⟨q, hq⟩] at hn
        cases hn
      simp [Custody.acquire, howns, hno, eq_comm]
    · simp [Custody.acquire, hm, howns, h.table_iff]
  owner_unique := by
    intro q q' m m' r' hq hq'
    -- the new resource had no owner
    have hnew : ∀ {q m}, ¬ owns q m r := fun hq => hr (h.owned hq).1
    rcases (howns _ _ _).mp hq with hq | ⟨rfl, rfl, rfl⟩ <;>
      rcases (howns _ _ _).mp hq' with hq' | ⟨rfl, rfl, hr'⟩
    · exact h.owner_unique hq hq'
    · exact absurd (hr' ▸ hq) hnew
    · exact absurd hq' hnew
    · exact ⟨rfl, rfl⟩
  owned := by
    intro q m r' hq
    rw [hissued]
    rcases (howns _ _ _).mp hq with hq | ⟨-, -, rfl⟩
    · exact ⟨.inl (h.owned hq).1, (h.owned hq).2⟩
    · exact ⟨.inr rfl, h.fresh r' hr⟩
  fate := by
    intro r' hr'
    rcases (hissued r').mp hr' with hr' | rfl
    · rcases h.fate r' hr' with ⟨q, m, hq⟩ | hq
      · exact .inl ⟨q, m, (howns _ _ _).mpr (.inl hq)⟩
      · exact .inr hq
    · exact .inl ⟨p, n, (howns _ _ _).mpr (.inr ⟨rfl, rfl, rfl⟩)⟩
  fresh := by
    intro r' hr'
    exact h.fresh r' fun hissue => hr' ((hissued r').mpr (.inl hissue))
  stray := h.stray

/-- A party hands its name for a resource to another party. -/
theorem Sound.transfer (h : K.Sound owns issued) (hp : owns p n r)
    (howns : ∀ q' m r', owns' q' m r' ↔ (owns q' m r' ∧ r' ≠ r) ∨ (q' = q ∧ m = n ∧ r' = r)) :
    K.Sound owns' issued where
  table_iff := by
    intro m r'
    rw [h.table_iff]
    constructor
    · rintro ⟨p', hp'⟩
      by_cases hr : r' = r
      · subst hr
        exact ⟨q, (howns _ _ _).mpr (.inr ⟨rfl, (h.owner_unique hp' hp).2, rfl⟩)⟩
      · exact ⟨p', (howns _ _ _).mpr (.inl ⟨hp', hr⟩)⟩
    · rintro ⟨p', hp'⟩
      rcases (howns _ _ _).mp hp' with ⟨hp', -⟩ | ⟨-, rfl, rfl⟩
      · exact ⟨p', hp'⟩
      · exact ⟨p, hp⟩
  owner_unique := by
    intro q₁ q₂ m₁ m₂ r' h₁ h₂
    rcases (howns _ _ _).mp h₁ with ⟨h₁, hne₁⟩ | ⟨rfl, rfl, hr₁⟩ <;>
      rcases (howns _ _ _).mp h₂ with ⟨h₂, hne₂⟩ | ⟨rfl, rfl, hr₂⟩
    · exact h.owner_unique h₁ h₂
    · exact absurd hr₂ hne₁
    · exact absurd hr₁ hne₂
    · exact ⟨rfl, rfl⟩
  owned := by
    intro q' m r' hq'
    rcases (howns _ _ _).mp hq' with ⟨hq', -⟩ | ⟨-, -, rfl⟩
    · exact h.owned hq'
    · exact h.owned hp
  fate := by
    intro r' hr'
    rcases h.fate r' hr' with ⟨q', m, hq'⟩ | hq'
    · by_cases hr : r' = r
      · exact .inl ⟨q, n, (howns _ _ _).mpr (.inr ⟨rfl, rfl, hr⟩)⟩
      · exact .inl ⟨q', m, (howns _ _ _).mpr (.inl ⟨hq', hr⟩)⟩
    · exact .inr hq'
  fresh := h.fresh
  stray := h.stray

/-- What handing back does to a name in use. -/
theorem release_of_table [DecidableEq N] [DecidableEq R] (hn : K.table n = some r) :
    K.release p n =
      { K with
        table := Function.update K.table n none
        releasedBy := Function.update K.releasedBy r (K.releasedBy r ++ [p]) } := by
  unfold Custody.release
  rw [hn]

/-- Handing back adds the party to the record of the resource. -/
theorem mem_release [DecidableEq N] [DecidableEq R] (hn : K.table n = some r)
    (hq : q ∈ (K.release p n).releasedBy r') : q ∈ K.releasedBy r' ∨ (q = p ∧ r' = r) := by
  rw [release_of_table hn] at hq
  by_cases hr : r' = r
  · subst hr
    simpa using hq
  · exact .inl (by simpa [hr] using hq)

/-- The owner of a resource hands it back. -/
theorem Sound.release [DecidableEq N] [DecidableEq R] (h : K.Sound owns issued) (hp : owns p n r)
    (howns : ∀ q m r', owns' q m r' ↔ owns q m r' ∧ r' ≠ r) :
    (K.release p n).Sound owns' issued := by
  have hn : K.table n = some r := (h.table_iff n r).mpr ⟨p, hp⟩
  rw [release_of_table hn]
  refine ⟨?_, ?_, ?_, ?_, ?_, h.stray⟩
  · intro m r'
    by_cases hm : m = n
    · -- nobody else has the name that is handed back
      subst hm
      have hno : ∀ q, ¬ owns' q m r' := by
        intro q hq
        obtain ⟨hq, hne⟩ := (howns _ _ _).mp hq
        exact hne (h.owner_of_name hq hp).2
      simp [hno]
    · have hne : ∀ q, owns q m r' → r' ≠ r := by
        rintro q hq rfl
        exact hm (h.owner_unique hq hp).2
      simp only [Function.update_of_ne hm, h.table_iff, howns]
      exact exists_congr fun q => ⟨fun hq => ⟨hq, hne q hq⟩, And.left⟩
  · intro q₁ q₂ m₁ m₂ r' h₁ h₂
    exact h.owner_unique ((howns _ _ _).mp h₁).1 ((howns _ _ _).mp h₂).1
  · intro q m r' hq
    obtain ⟨hq, hne⟩ := (howns _ _ _).mp hq
    simpa only [Function.update_of_ne hne] using h.owned hq
  · intro r' hr'
    by_cases hr : r' = r
    · subst hr
      exact .inr ⟨p, by simp [(h.owned hp).2]⟩
    · simp only [Function.update_of_ne hr, howns]
      rcases h.fate r' hr' with ⟨q, m, hq⟩ | hq
      · exact .inl ⟨q, m, hq, hr⟩
      · exact .inr hq
  · intro r' hr'
    have hne : r' ≠ r := by
      rintro rfl
      exact hr' (h.owned hp).1
    simpa only [Function.update_of_ne hne] using h.fresh r' hr'

end Custody

end Foundation
