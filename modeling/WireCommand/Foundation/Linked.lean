import Mathlib.Data.List.Induction
import Mathlib.Data.List.Perm.Subperm
import Mathlib.Logic.Function.Basic
import Mathlib.Tactic.Common

/-!
# Linked lists in a heap

A heap maps addresses to cells, a cell holds a value and the address of the next cell, and address 0
is `NULL`. `Segment heap p cells q` says that following the links from `p` leads through exactly
these cells to `q`; a list is a segment that ends at `NULL`. What a program does to a list it does
to a cell or two, and the rest of the segment is carried over by the **frame** rule: a segment does
not change when no cell of its own does.

`Linked` is a list with a pointer to its first and its last cell, which no cell occurs in twice.
`Linked.push` adds a cell at its end, `Linked.pop` takes off the first, and `Linked.unlink` takes
one out of the middle.
-/

namespace Foundation

variable {α : Type}

/-- A cell of a linked list. -/
structure Cell (α : Type) where
  value : α
  next : Nat

/-- The cells that are allocated, by address. -/
abbrev Heap (α : Type) := Nat → Option (Cell α)

/-- Stores a cell. -/
def Heap.set (heap : Heap α) (a : Nat) (cell : Cell α) : Heap α :=
  Function.update heap a (some cell)

/-- Gives a cell back. -/
def Heap.free (heap : Heap α) (a : Nat) : Heap α := Function.update heap a none

@[simp] theorem Heap.set_self (heap : Heap α) (a : Nat) (cell : Cell α) :
    heap.set a cell a = some cell := Function.update_self ..

theorem Heap.set_of_ne (heap : Heap α) {a b : Nat} (cell : Cell α) (h : b ≠ a) :
    heap.set a cell b = heap b := Function.update_of_ne h ..

theorem Heap.free_of_ne (heap : Heap α) {a b : Nat} (h : b ≠ a) : heap.free a b = heap b :=
  Function.update_of_ne h ..

/-! ## Segments -/

/-- From `p`, the links lead through these cells, given by address and value, to `q`. -/
def Segment (heap : Heap α) : Nat → List (Nat × α) → Nat → Prop
  | p, [], q => p = q
  | p, (a, x) :: cells, q => p = a ∧ a ≠ 0 ∧ ∃ next, heap a = some ⟨x, next⟩ ∧
      Segment heap next cells q

variable {heap heap' : Heap α} {p q r : Nat} {cells front back : List (Nat × α)}

theorem segment_append :
    Segment heap p (front ++ back) q ↔ ∃ r, Segment heap p front r ∧ Segment heap r back q := by
  induction front generalizing p with
  | nil =>
      constructor
      · intro h
        exact ⟨p, rfl, h⟩
      · rintro ⟨r, rfl, h⟩
        exact h
  | cons cell front ih =>
      obtain ⟨a, x⟩ := cell
      simp only [List.cons_append, Segment, ih]
      constructor
      · rintro ⟨rfl, ha, next, hcell, r, hfront, hback⟩
        exact ⟨r, ⟨rfl, ha, next, hcell, hfront⟩, hback⟩
      · rintro ⟨r, ⟨rfl, ha, next, hcell, hfront⟩, hback⟩
        exact ⟨rfl, ha, next, hcell, r, hfront, hback⟩

/-- The last cell of a segment points behind it. -/
theorem segment_concat {a : Nat} {x : α} :
    Segment heap p (front ++ [(a, x)]) q ↔
      Segment heap p front a ∧ a ≠ 0 ∧ heap a = some ⟨x, q⟩ := by
  rw [segment_append]
  constructor
  · rintro ⟨r, hfront, rfl, ha, next, hcell, rfl⟩
    exact ⟨hfront, ha, hcell⟩
  · rintro ⟨hfront, ha, hcell⟩
    exact ⟨a, hfront, rfl, ha, q, hcell, rfl⟩

/-- **The frame rule.** -/
theorem Segment.frame (h : Segment heap p cells q)
    (hsame : ∀ a ∈ cells.map Prod.fst, heap' a = heap a) : Segment heap' p cells q := by
  induction cells generalizing p with
  | nil => exact h
  | cons cell cells ih =>
      obtain ⟨a, x⟩ := cell
      obtain ⟨rfl, ha, next, hcell, hrest⟩ := h
      refine ⟨rfl, ha, next, ?_, ?_⟩
      · rw [hsame p List.mem_cons_self, hcell]
      · exact ih hrest fun b hb => hsame b (List.mem_cons_of_mem _ hb)

theorem Segment.set (h : Segment heap p cells q) {a : Nat} (ha : a ∉ cells.map Prod.fst)
    (cell : Cell α) : Segment (heap.set a cell) p cells q :=
  h.frame fun _ hb => heap.set_of_ne cell fun hba => ha (hba ▸ hb)

theorem Segment.free (h : Segment heap p cells q) {a : Nat} (ha : a ∉ cells.map Prod.fst) :
    Segment (heap.free a) p cells q :=
  h.frame fun _ hb => heap.free_of_ne fun hba => ha (hba ▸ hb)

/-- No cell lies at `NULL`. -/
theorem Segment.ne_zero (h : Segment heap p cells q) : ∀ a ∈ cells.map Prod.fst, a ≠ 0 := by
  induction cells generalizing p with
  | nil => simp
  | cons cell cells ih =>
      obtain ⟨a, x⟩ := cell
      obtain ⟨-, ha, next, -, hrest⟩ := h
      intro b hb
      rcases List.mem_cons.mp hb with rfl | hb
      · exact ha
      · exact ih hrest b hb

/-- The cells of a segment are allocated. -/
theorem Segment.allocated (h : Segment heap p cells q) :
    ∀ a ∈ cells.map Prod.fst, heap a ≠ none := by
  induction cells generalizing p with
  | nil => simp
  | cons cell cells ih =>
      obtain ⟨a, x⟩ := cell
      obtain ⟨-, -, next, hcell, hrest⟩ := h
      intro b hb
      rcases List.mem_cons.mp hb with rfl | hb
      · simp [hcell]
      · exact ih hrest b hb

/-! ## Lists with a last cell -/

/-- The address of the last cell, or `NULL`. -/
def lastAddress (cells : List (Nat × α)) : Nat := (cells.getLast?.map Prod.fst).getD 0

@[simp] theorem lastAddress_nil : lastAddress ([] : List (Nat × α)) = 0 := rfl

@[simp] theorem lastAddress_concat (cells : List (Nat × α)) (a : Nat) (x : α) :
    lastAddress (cells ++ [(a, x)]) = a := by
  simp [lastAddress]

theorem lastAddress_append_of_ne_nil (front : List (Nat × α)) (h : back ≠ []) :
    lastAddress (front ++ back) = lastAddress back := by
  rw [lastAddress, lastAddress, List.getLast?_append_of_ne_nil _ h]

theorem lastAddress_mem (h : cells ≠ []) : lastAddress cells ∈ cells.map Prod.fst := by
  induction cells using List.reverseRecOn with
  | nil => exact absurd rfl h
  | append_singleton cells cell _ =>
      obtain ⟨a, x⟩ := cell
      simp

/-- A list without repeated cells, with pointers to its first and its last cell. -/
structure Linked (heap : Heap α) (head tail : Nat) (cells : List (Nat × α)) : Prop where
  segment : Segment heap head cells 0
  nodup : (cells.map Prod.fst).Nodup
  tail_eq : tail = lastAddress cells

namespace Linked

variable {head tail a : Nat} {x : α}

theorem nil : Linked heap 0 0 ([] : List (Nat × α)) := ⟨rfl, List.nodup_nil, rfl⟩

theorem head_eq_zero (h : Linked heap head tail cells) : head = 0 ↔ cells = [] := by
  cases cells with
  | nil => simp [show head = 0 from h.segment]
  | cons cell cells =>
      obtain ⟨rfl, ha, -⟩ := h.segment
      simp [ha]

theorem tail_eq_zero (h : Linked heap head tail cells) : tail = 0 ↔ cells = [] := by
  constructor
  · intro htail
    by_contra hne
    exact h.segment.ne_zero _ (lastAddress_mem hne) (h.tail_eq ▸ htail)
  · rintro rfl
    exact h.tail_eq

/-- There are no more cells than addresses for them. -/
theorem length_le (h : Linked heap head tail cells) {n : Nat}
    (hbound : ∀ a ∈ cells.map Prod.fst, a ≤ n) : cells.length ≤ n := by
  have hsubset : cells.map Prod.fst ⊆ List.range' 1 n := by
    intro a ha
    have hpos := h.segment.ne_zero a ha
    have hle := hbound a ha
    rw [List.mem_range'_1]
    omega
  have hlength := (List.Nodup.subperm h.nodup hsubset).length_le
  rwa [List.length_map, List.length_range'] at hlength

/-- The first cell of an empty list. -/
theorem push_nil (ha : a ≠ 0) (hcell : heap a = some ⟨x, 0⟩) : Linked heap a a [(a, x)] :=
  ⟨⟨rfl, ha, 0, hcell, rfl⟩, by simp, rfl⟩

/-- **A cell is added at the end**: the cell that was last points to it. -/
theorem push (h : Linked heap head tail cells) (hne : cells ≠ []) (ha : a ≠ 0)
    (hfresh : a ∉ cells.map Prod.fst) (hcell : heap a = some ⟨x, 0⟩) :
    ∃ y, heap tail = some ⟨y, 0⟩ ∧
      Linked (heap.set tail ⟨y, a⟩) head a (cells ++ [(a, x)]) := by
  obtain ⟨hsegment, hnodup, htail⟩ := h
  cases cells using List.reverseRecOn with
  | nil => exact absurd rfl hne
  | append_singleton cells cell =>
      obtain ⟨b, y⟩ := cell
      rw [lastAddress_concat] at htail
      subst htail
      obtain ⟨hfront, hb, hlast⟩ := segment_concat.mp hsegment
      simp only [List.map_append, List.map_cons, List.map_nil] at hfresh hnodup
      have hb' : tail ∉ cells.map Prod.fst := by
        have := (List.nodup_append.mp hnodup).2.2
        intro hmem
        exact this tail hmem tail (by simp) rfl
      have hab : a ≠ tail := fun h => hfresh (by simp [h])
      refine ⟨y, hlast, ?_, ?_, (lastAddress_concat _ _ _).symm⟩
      · rw [segment_concat, segment_concat]
        refine ⟨⟨hfront.set hb' _, hb, heap.set_self _ _⟩, ha, ?_⟩
        rw [heap.set_of_ne _ hab, hcell]
      · simp only [List.map_append, List.map_cons, List.map_nil]
        rw [List.nodup_append]
        refine ⟨hnodup, by simp, ?_⟩
        intro b hb c hc hbc
        simp only [List.mem_singleton] at hc
        exact hfresh (hc ▸ hbc ▸ hb)

/-- A list stays when a cell that is not its own is stored. -/
theorem set (h : Linked heap head tail cells) (ha : a ∉ cells.map Prod.fst) (cell : Cell α) :
    Linked (heap.set a cell) head tail cells := ⟨h.segment.set ha cell, h.nodup, h.tail_eq⟩

/-- **The first cell is taken off**, whatever becomes of it. -/
theorem pop (h : Linked heap head tail ((a, x) :: cells)) :
    head = a ∧ ∃ next, heap a = some ⟨x, next⟩ ∧
      ∀ cell, Linked (heap.set a cell) next (if next = 0 then 0 else tail) cells := by
  obtain ⟨⟨rfl, ha, next, hcell, hrest⟩, hnodup, htail⟩ := h
  refine ⟨rfl, next, hcell, fun cell => ?_⟩
  simp only [List.map_cons, List.nodup_cons] at hnodup
  refine ⟨hrest.set hnodup.1 cell, hnodup.2, ?_⟩
  cases cells with
  | nil =>
      have hnext : next = 0 := hrest
      simp [hnext]
  | cons second cells =>
      obtain ⟨b, y⟩ := second
      obtain ⟨rfl, hb, -⟩ := hrest
      rw [if_neg hb, htail]
      exact lastAddress_append_of_ne_nil [(head, x)] (by simp)

/-- The last cell of what is left when a cell is taken out. -/
theorem lastAddress_unlink (hnodup : ((front ++ (a, x) :: back).map Prod.fst).Nodup) :
    lastAddress (front ++ back) =
      if lastAddress (front ++ (a, x) :: back) = a then lastAddress front
      else lastAddress (front ++ (a, x) :: back) := by
  cases back with
  | nil => simp
  | cons cell back =>
      have hlast : lastAddress (front ++ (a, x) :: cell :: back) = lastAddress (cell :: back) := by
        rw [lastAddress_append_of_ne_nil _ (by simp)]
        exact lastAddress_append_of_ne_nil [(a, x)] (by simp)
      -- the last cell lies behind the one that is taken out, and no cell occurs twice
      have hne : lastAddress (cell :: back) ≠ a := by
        intro heq
        simp only [List.map_append, List.map_cons, List.nodup_append, List.nodup_cons] at hnodup
        apply hnodup.2.1.1
        rw [← List.map_cons, ← heq]
        exact lastAddress_mem (by simp)
      rw [hlast, if_neg hne, lastAddress_append_of_ne_nil _ (by simp)]

/-- **A cell is taken out of the middle**, behind the cell at `b`. -/
theorem unlink {b : Nat} {y : α} {next : Nat}
    (hnodup : ((front ++ [(b, y)] ++ (a, x) :: back).map Prod.fst).Nodup)
    (hfront : Segment heap head (front ++ [(b, y)]) a) (hback : Segment heap next back 0) :
    heap b = some ⟨y, a⟩ ∧
      Segment ((heap.set b ⟨y, next⟩).free a) head (front ++ [(b, y)]) next ∧
      Segment ((heap.set b ⟨y, next⟩).free a) next back 0 := by
  obtain ⟨hsegment, hb, hcell⟩ := segment_concat.mp hfront
  simp only [List.append_assoc, List.cons_append, List.nil_append, List.map_append, List.map_cons,
    List.nodup_append, List.nodup_cons, List.mem_cons, not_or] at hnodup
  obtain ⟨-, ⟨⟨hba, hbback⟩, haback, -⟩, hdisjoint⟩ := hnodup
  have hfrontb : b ∉ front.map Prod.fst := fun h => hdisjoint b h b (.inl rfl) rfl
  have hfronta : a ∉ front.map Prod.fst := fun h => hdisjoint a h a (.inr (.inl rfl)) rfl
  refine ⟨hcell, ?_, (hback.set hbback _).free haback⟩
  rw [segment_concat]
  refine ⟨(hsegment.set hfrontb _).free hfronta, hb, ?_⟩
  rw [Heap.free_of_ne _ hba, Heap.set_self]

end Linked

end Foundation
