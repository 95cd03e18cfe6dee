import Mathlib.Data.List.Basic

namespace Hogl.Data

universe u

/-! # Histories that grow

A history lists events, oldest first.  A property of every event in it may
look at what happened before the event; appending events leaves it to be
shown for the new ones only.
-/

variable {α : Type u}

/-- `P` holds of every event of the history and what came before it. -/
def AtEach (P : List α → α → Prop) (history : List α) : Prop :=
  ∀ before event after, history = before ++ event :: after → P before event

theorem atEach_iff_getElem {P : List α → α → Prop} {history : List α} : AtEach P history ↔
    ∀ position : Fin history.length, P (history.take position) history[position] := by
  constructor
  · intro holds position
    exact holds _ _ (history.drop (position + 1)) (by simp)
  · intro holds before event after split
    subst split
    simpa using holds ⟨before.length, by simp⟩

instance {P : List α → α → Prop} [∀ before event, Decidable (P before event)] (history : List α) :
    Decidable (AtEach P history) := decidable_of_iff _ atEach_iff_getElem.symm

theorem atEach_nil (P : List α → α → Prop) : AtEach P [] := by
  intro before event after split
  exact absurd split.symm (List.append_ne_nil_of_right_ne_nil before (List.cons_ne_nil _ _))

/-- An event of a longer history is an old one or a new one. -/
theorem append_eq_split {old new before after : List α} {event : α}
    (split : old ++ new = before ++ event :: after) :
    (∃ rest, old = before ++ event :: rest ∧ after = rest ++ new) ∨
    ∃ middle, before = old ++ middle ∧ new = middle ++ event :: after := by
  rcases List.append_eq_append_iff.mp split with ⟨middle, first, second⟩ | ⟨rest, first, second⟩
  · exact .inr ⟨middle, first, second⟩
  · cases rest with
    | nil =>
        refine .inr ⟨[], ?_, second.symm⟩
        rw [first, List.append_nil, List.append_nil]
    | cons head rest =>
        obtain ⟨rfl, later⟩ := List.cons.inj second
        exact .inl ⟨rest, first, later⟩

theorem AtEach.of_append {P : List α → α → Prop} {old new : List α}
    (holds : AtEach P (old ++ new)) : AtEach P old := by
  intro before event after split
  exact holds before event (after ++ new) (by rw [split, List.append_assoc, List.cons_append])

theorem AtEach.append {P : List α → α → Prop} {old new : List α} (holds : AtEach P old)
    (added : ∀ middle event after, new = middle ++ event :: after → P (old ++ middle) event) :
    AtEach P (old ++ new) := by
  intro before event after split
  rcases append_eq_split split with ⟨rest, first, -⟩ | ⟨middle, rfl, second⟩
  · exact holds before event rest first
  · exact added middle event after second

/-- Appending events that the property says nothing about. -/
theorem AtEach.append_of {P : List α → α → Prop} {old new : List α} (holds : AtEach P old)
    (silent : ∀ event ∈ new, ∀ before, P before event) : AtEach P (old ++ new) := by
  refine holds.append fun middle event after split => silent event ?_ _
  rw [split]
  exact List.mem_append_right _ List.mem_cons_self

theorem AtEach.concat {P : List α → α → Prop} {old : List α} {event : α} (holds : AtEach P old)
    (last : P old event) : AtEach P (old ++ [event]) := by
  refine holds.append fun middle other after split => ?_
  cases middle with
  | nil =>
      obtain ⟨rfl, -⟩ := List.cons.inj split
      rwa [List.append_nil]
  | cons head middle =>
      have none := (List.cons.inj split).2
      exact absurd none.symm (List.append_ne_nil_of_right_ne_nil middle (List.cons_ne_nil _ _))

/-- The event that gives one of the selected values, and what came before it. -/
theorem filterMap_split {β : Type u} {select : α → Option β} {history : List α} {position : Nat}
    {value : β} (read : (history.filterMap select)[position]? = some value) :
    ∃ before event after, history = before ++ event :: after ∧ select event = some value ∧
      (before.filterMap select).length = position := by
  induction history generalizing position with
  | nil => simp at read
  | cons head rest ih =>
      cases chosen : select head with
      | none =>
          rw [List.filterMap_cons_none chosen] at read
          obtain ⟨before, event, after, rfl, selected, length⟩ := ih read
          exact ⟨head :: before, event, after, rfl, selected,
            by rw [List.filterMap_cons_none chosen, length]⟩
      | some first =>
          rw [List.filterMap_cons_some chosen] at read
          cases position with
          | zero => exact ⟨[], head, rest, rfl, chosen.trans read, rfl⟩
          | succ position =>
              obtain ⟨before, event, after, rfl, selected, length⟩ := ih read
              exact ⟨head :: before, event, after, rfl, selected,
                by rw [List.filterMap_cons_some chosen, List.length_cons, length]⟩

/-- What a longer history has at a position is old or the last. -/
theorem getElem?_concat_cases {front : List α} {last value : α} {position : Nat}
    (found : (front ++ [last])[position]? = some value) :
    (position < front.length ∧ front[position]? = some value) ∨
    (position = front.length ∧ last = value) := by
  have bound := (List.getElem?_eq_some_iff.mp found).1
  rw [List.length_append, List.length_singleton] at bound
  by_cases inside : position < front.length
  · rw [List.getElem?_append_left inside] at found
    exact .inl ⟨inside, found⟩
  · obtain rfl : position = front.length := by omega
    rw [List.getElem?_append_right (Nat.le_refl _), Nat.sub_self] at found
    exact .inr ⟨rfl, Option.some.inj found⟩

end Hogl.Data
