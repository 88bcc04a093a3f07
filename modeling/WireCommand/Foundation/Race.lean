import Mathlib.Data.List.Basic

/-!
# Data races

Threads that share memory, as a history: what each of them did, in the order in which it was done. Of
that order the program may rely only on a part, which is `Before`: the order of each thread, from an
`unlock` to the next `lock`, from the creation of a thread to what it does, and from what it does to the
`join` of it. `RaceFree` says that two accesses that conflict are always ordered by it, so that neither
the compiler nor the processor can make a difference to them.

The rules are for a thread that appends a block of actions. `Knows` is what comes before anything that
the thread does next, and `Released` what comes before anything done under the lock. A block without
synchronisation may touch what its thread knows (`RaceFree.append`), behind a `lock` also what was
released (`RaceFree.critical`), and behind a `join` also what the joined thread has touched
(`RaceFree.joined`).
-/

namespace Foundation

/-- What a thread does to the memory `L`, to the locks `M` and to the other threads `P`. -/
inductive Action (P M L : Type) where
  | read (l : L)
  | write (l : L)
  | lock (m : M)
  | unlock (m : M)
  | fork (t : P)
  | join (t : P)
  deriving DecidableEq

variable {P M L : Type}

/-- Two accesses to one location, of which one at least is a write. -/
def Action.Conflicts : Action P M L → Action P M L → Prop
  | .read l, .write l' => l = l'
  | .write l, .read l' => l = l'
  | .write l, .write l' => l = l'
  | _, _ => False

theorem Action.Conflicts.symm {a b : Action P M L} (h : a.Conflicts b) : b.Conflicts a := by
  cases a <;> cases b <;> simp only [Conflicts] at h ⊢ <;> exact h.symm

/-- What has been done, and by whom. -/
abbrev History (P M L : Type) := List (P × Action P M L)

namespace History

/-- The actions of one thread. -/
def block (p : P) (as : List (Action P M L)) : History P M L := as.map fun a => (p, a)

/-- **Happens before**, between the positions of a history. -/
inductive Before (h : History P M L) : Nat → Nat → Prop
  | program {i j : Nat} {p : P} {a b : Action P M L} (hij : i < j) (hi : h[i]? = some (p, a))
      (hj : h[j]? = some (p, b)) : Before h i j
  | lock {i j : Nat} {p q : P} {m : M} (hij : i < j) (hi : h[i]? = some (p, .unlock m))
      (hj : h[j]? = some (q, .lock m)) : Before h i j
  | fork {i j : Nat} {p t : P} {b : Action P M L} (hij : i < j) (hi : h[i]? = some (p, .fork t))
      (hj : h[j]? = some (t, b)) : Before h i j
  | join {i j : Nat} {p t : P} {a : Action P M L} (hij : i < j) (hi : h[i]? = some (t, a))
      (hj : h[j]? = some (p, .join t)) : Before h i j
  | trans {i j k : Nat} (hij : Before h i j) (hjk : Before h j k) : Before h i k

/-- **No data race**: accesses that conflict are ordered. -/
def RaceFree (h : History P M L) : Prop :=
  ∀ i j p q a b, i < j → h[i]? = some (p, a) → h[j]? = some (q, b) → a.Conflicts b → h.Before i j

/-- What comes before all that the thread does from now on. -/
def Knows (h : History P M L) (p : P) (k : Nat) : Prop :=
  ∃ j, ((∃ a, h[j]? = some (p, a)) ∨ ∃ q, h[j]? = some (q, .fork p)) ∧ (k = j ∨ h.Before k j)

/-- What comes before all that is done under the lock from now on. -/
def Released (h : History P M L) (m : M) (k : Nat) : Prop :=
  ∃ j q, h[j]? = some (q, .unlock m) ∧ (k = j ∨ h.Before k j)

variable {h h' : History P M L} {p q : P} {m : M} {k : Nat} {a b : Action P M L}
  {as : List (Action P M L)}

/-! ## Histories that grow -/

theorem lookup_append {x : P × Action P M L} (hk : h[k]? = some x) : (h ++ h')[k]? = some x := by
  rw [List.getElem?_append_left (List.getElem?_eq_some_iff.mp hk).1, hk]

theorem lt_of_lookup {x : P × Action P M L} (hk : h[k]? = some x) : k < h.length :=
  (List.getElem?_eq_some_iff.mp hk).1

/-- An action is an old one, or one of the block. -/
theorem lookup_block (hk : (h ++ block p as)[k]? = some (q, b)) :
    h[k]? = some (q, b) ∨ (h.length ≤ k ∧ q = p ∧ b ∈ as) := by
  by_cases hlt : k < h.length
  · rw [List.getElem?_append_left hlt] at hk
    exact .inl hk
  · rw [List.getElem?_append_right (Nat.le_of_not_lt hlt), block, List.getElem?_map,
      Option.map_eq_some_iff] at hk
    obtain ⟨b', hb, heq⟩ := hk
    cases heq
    exact .inr ⟨Nat.le_of_not_lt hlt, rfl, List.mem_of_getElem? hb⟩

theorem lookup_of_ne (hk : (h ++ block p as)[k]? = some (q, b)) (hne : q ≠ p) :
    h[k]? = some (q, b) :=
  (lookup_block hk).resolve_right fun hnew => hne hnew.2.1

theorem block_append (as bs : List (Action P M L)) :
    block p (as ++ bs) = block p as ++ block p bs := by
  simp [block]

theorem Before.append {i j : Nat} (hij : h.Before i j) : (h ++ h').Before i j := by
  induction hij with
  | program hij hi hj => exact .program hij (lookup_append hi) (lookup_append hj)
  | lock hij hi hj => exact .lock hij (lookup_append hi) (lookup_append hj)
  | fork hij hi hj => exact .fork hij (lookup_append hi) (lookup_append hj)
  | join hij hi hj => exact .join hij (lookup_append hi) (lookup_append hj)
  | trans _ _ ih ih' => exact ih.trans ih'

theorem Knows.append (hk : h.Knows p k) : (h ++ h').Knows p k := by
  obtain ⟨j, hj, hkj⟩ := hk
  refine ⟨j, ?_, hkj.imp_right Before.append⟩
  rcases hj with ⟨a, hj⟩ | ⟨q, hj⟩
  · exact .inl ⟨a, lookup_append hj⟩
  · exact .inr ⟨q, lookup_append hj⟩

theorem Released.append (hk : h.Released m k) : (h ++ h').Released m k := by
  obtain ⟨j, q, hj, hkj⟩ := hk
  exact ⟨j, q, lookup_append hj, hkj.imp_right Before.append⟩

/-! ## Knowledge -/

theorem knows_own (hk : h[k]? = some (p, a)) : h.Knows p k := ⟨k, .inl ⟨a, hk⟩, .inl rfl⟩

theorem Before.of_le {i j : Nat} (hi : k = i ∨ h.Before k i) (hij : h.Before i j) : h.Before k j := by
  rcases hi with rfl | hi
  · exact hij
  · exact hi.trans hij

/-- What a thread knows comes before what it does. -/
theorem Knows.before (hk : h.Knows p k) {j : Nat} (hj : (h ++ h')[j]? = some (p, a))
    (hnew : h.length ≤ j) : (h ++ h').Before k j := by
  obtain ⟨i, hi, hki⟩ := hk
  refine .of_le (hki.imp_right Before.append) ?_
  rcases hi with ⟨b, hi⟩ | ⟨q, hi⟩
  · exact .program (Nat.lt_of_lt_of_le (lt_of_lookup hi) hnew) (lookup_append hi) hj
  · exact .fork (Nat.lt_of_lt_of_le (lt_of_lookup hi) hnew) (lookup_append hi) hj

/-- Who takes the lock knows what was released. -/
theorem Released.knows (hk : h.Released m k) : (h ++ block p [.lock m]).Knows p k := by
  obtain ⟨i, q, hi, hki⟩ := hk
  have hlock : (h ++ block p [.lock m])[h.length]? = some (p, .lock m) := by simp [block]
  exact ⟨h.length, .inl ⟨_, hlock⟩, .inr (.of_le (hki.imp_right Before.append)
    (.lock (lt_of_lookup hi) (lookup_append hi) hlock))⟩

/-- Who joins a thread knows what it has done. -/
theorem knows_joined {t : P} (hk : h[k]? = some (t, a)) : (h ++ block p [.join t]).Knows p k := by
  have hjoin : (h ++ block p [.join t])[h.length]? = some (p, .join t) := by simp [block]
  exact ⟨h.length, .inl ⟨_, hjoin⟩, .inr (.join (lt_of_lookup hk) (lookup_append hk) hjoin)⟩

/-- A new thread knows what its creator knows. -/
theorem Knows.forked {t : P} (hk : h.Knows p k) : (h ++ block p [.fork t]).Knows t k := by
  have hfork : (h ++ block p [.fork t])[h.length]? = some (p, .fork t) := by simp [block]
  exact ⟨h.length, .inr ⟨_, hfork⟩, .inr (hk.before hfork (Nat.le_refl _))⟩

/-- Who gives the lock back releases what it knows. -/
theorem Knows.released (hk : h.Knows p k) : (h ++ block p [.unlock m]).Released m k := by
  have hunlock : (h ++ block p [.unlock m])[h.length]? = some (p, .unlock m) := by simp [block]
  exact ⟨h.length, p, hunlock, .inr (hk.before hunlock (Nat.le_refl _))⟩

/-- All that a thread has done when it gives the lock back. -/
theorem released_block (hk : (h ++ block p (as ++ [Action.unlock m]))[k]? = some (p, a)) :
    (h ++ block p (as ++ [Action.unlock m])).Released m k := by
  rw [block_append, ← List.append_assoc] at hk ⊢
  rcases lookup_block hk with hold | ⟨-, -, hmem⟩
  · exact (knows_own hold).released
  · rw [List.mem_singleton] at hmem
    subst hmem
    exact ⟨k, p, hk, .inl rfl⟩

/-! ## Blocks -/

theorem RaceFree.nil : RaceFree ([] : History P M L) := by
  intro i j p q a b _ hi
  simp at hi

/-- A block that touches what its thread knows. -/
theorem RaceFree.append (hfree : h.RaceFree)
    (hknown : ∀ a ∈ as, ∀ k q b, h[k]? = some (q, b) → q ≠ p → b.Conflicts a → h.Knows p k) :
    (h ++ block p as).RaceFree := by
  intro i j q r a b hij hi hj hconflict
  rcases lookup_block hj with hj' | ⟨hnew, rfl, hmem⟩
  · have hi' := hi
    rw [List.getElem?_append_left (Nat.lt_trans hij (lt_of_lookup hj'))] at hi'
    exact (hfree i j q r a b hij hi' hj' hconflict).append
  · by_cases hq : q = r
    · subst hq
      exact .program hij hi hj
    · exact (hknown b hmem i q a (lookup_of_ne hi hq) hq hconflict).before hj hnew

/-- A block with one synchronisation, behind which its thread knows more. -/
theorem RaceFree.append_sync {pre post : List (Action P M L)} {sync : Action P M L}
    (hfree : h.RaceFree) (hsync : ∀ b : Action P M L, ¬ b.Conflicts sync)
    (hpre : ∀ a ∈ pre, ∀ k q b, h[k]? = some (q, b) → q ≠ p → b.Conflicts a → h.Knows p k)
    (hpost : ∀ a ∈ post, ∀ k q b, h[k]? = some (q, b) → q ≠ p → b.Conflicts a →
      (h ++ block p pre ++ block p [sync]).Knows p k) :
    (h ++ block p (pre ++ sync :: post)).RaceFree := by
  have hsplit : h ++ block p (pre ++ sync :: post) =
      h ++ block p pre ++ block p [sync] ++ block p post := by
    simp [block]
  rw [hsplit]
  refine ((hfree.append hpre).append fun a ha k q b _ _ hconflict => ?_).append
    fun a ha k q b hk hne hconflict => ?_
  · rw [List.mem_singleton] at ha
    exact absurd hconflict (ha ▸ hsync b)
  · exact hpost a ha k q b (lookup_of_ne (lookup_of_ne hk hne) hne) hne hconflict

/-- A block that takes the lock. -/
theorem RaceFree.critical {pre crit : List (Action P M L)} (hfree : h.RaceFree)
    (hpre : ∀ a ∈ pre, ∀ k q b, h[k]? = some (q, b) → q ≠ p → b.Conflicts a → h.Knows p k)
    (hcrit : ∀ a ∈ crit, ∀ k q b, h[k]? = some (q, b) → q ≠ p → b.Conflicts a →
      h.Knows p k ∨ h.Released m k) :
    (h ++ block p (pre ++ .lock m :: crit)).RaceFree := by
  refine hfree.append_sync (fun b => by cases b <;> exact id) hpre
    fun a ha k q b hk hne hconflict => ?_
  rcases hcrit a ha k q b hk hne hconflict with hknows | hreleased
  · exact hknows.append.append
  · exact hreleased.append.knows

/-- A block that joins a thread. -/
theorem RaceFree.joined {pre post : List (Action P M L)} {t : P} (hfree : h.RaceFree)
    (hpre : ∀ a ∈ pre, ∀ k q b, h[k]? = some (q, b) → q ≠ p → b.Conflicts a → h.Knows p k)
    (hpost : ∀ a ∈ post, ∀ k q b, h[k]? = some (q, b) → q ≠ p → b.Conflicts a →
      h.Knows p k ∨ q = t) :
    (h ++ block p (pre ++ .join t :: post)).RaceFree := by
  refine hfree.append_sync (fun b => by cases b <;> exact id) hpre
    fun a ha k q b hk hne hconflict => ?_
  rcases hpost a ha k q b hk hne hconflict with hknows | rfl
  · exact hknows.append.append
  · exact knows_joined (lookup_append hk)

end History

end Foundation
