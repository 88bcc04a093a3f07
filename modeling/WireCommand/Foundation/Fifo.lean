import Mathlib.Data.List.Basic

/-!
# Waiting in line

Things join a line at its end and are served at its front, and some leave it unserved, at any place,
because whoever they belong to has gone. `InLine` relates the line to its history: what was served,
followed by what waits, is what joined, in order, but for what belongs to somebody who is not there any
more. So nothing of somebody who is there is lost or overtaken.

A line changes in four ways, and each has its rule: things join, the first is served, some leave, and
somebody comes who was never in line.
-/

namespace Foundation

/-- The line `waiting` of a history in which `joined` came and `served` were served, for what is still
`present`. -/
structure InLine {α : Type} (present : α → Bool) (joined served waiting : List α) : Prop where
  sublist : List.Sublist (served ++ waiting) joined
  kept : (served ++ waiting).filter present = joined.filter present

namespace InLine

variable {α : Type} {present present' : α → Bool} {joined served waiting : List α}

theorem empty (present : α → Bool) : InLine present [] [] [] := ⟨.refl [], rfl⟩

/-- Things join at the end. -/
theorem join (h : InLine present joined served waiting) (new : List α) :
    InLine present (joined ++ new) served (waiting ++ new) where
  sublist := by
    rw [← List.append_assoc]
    exact h.sublist.append_right new
  kept := by rw [← List.append_assoc, List.filter_append, h.kept, List.filter_append]

/-- The first is served. -/
theorem serve {a : α} (h : InLine present joined served (a :: waiting)) :
    InLine present joined (served ++ [a]) waiting where
  sublist := by
    rw [List.append_assoc]
    exact h.sublist
  kept := by
    rw [List.append_assoc]
    exact h.kept

/-- Some leave, and none of them is of those who stay. -/
theorem leave (h : InLine present joined served waiting) {keep : α → Bool}
    (hstay : ∀ a, present' a = true → present a = true)
    (hkeep : ∀ a ∈ waiting, present' a = true → keep a = true) :
    InLine present' joined served (waiting.filter keep) where
  sublist := (List.filter_sublist.append_left served).trans h.sublist
  kept := by
    have hwaiting : (waiting.filter keep).filter present' = waiting.filter present' := by
      rw [List.filter_filter]
      apply List.filter_congr
      intro a ha
      cases hpresent : present' a with
      | false => rfl
      | true => rw [hkeep a ha hpresent]; rfl
    have hboth : ∀ l : List α, (l.filter present).filter present' = l.filter present' := by
      intro l
      rw [List.filter_filter]
      apply List.filter_congr
      intro a _
      cases hpresent : present' a with
      | false => rfl
      | true => rw [hstay a hpresent]; rfl
    calc (served ++ waiting.filter keep).filter present'
        = (served ++ waiting).filter present' := by
          rw [List.filter_append, hwaiting, List.filter_append]
      _ = ((served ++ waiting).filter present).filter present' := (hboth _).symm
      _ = joined.filter present' := by rw [h.kept, hboth]

/-- Somebody comes who was never in line. -/
theorem congr (h : InLine present joined served waiting)
    (hsame : ∀ a ∈ joined, present' a = present a) : InLine present' joined served waiting where
  sublist := h.sublist
  kept := by
    rw [List.filter_congr hsame, List.filter_congr fun a ha => hsame a (h.sublist.subset ha)]
    exact h.kept

/-- **Nobody is overtaken**: of what is still present, what was served is what came first. -/
theorem served_first (h : InLine present joined served waiting) :
    List.IsPrefix (served.filter present) (joined.filter present) := by
  rw [← h.kept, List.filter_append]
  exact List.prefix_append _ _

end InLine

end Foundation
