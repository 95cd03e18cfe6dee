import Mathlib.Data.List.Sort
import Mathlib.Algebra.BigOperators.Group.Finset.Basic

namespace Hogl.Data

/-! # Sorting without stability

`std::sort` promises a rearrangement in which no element stands before a
smaller one, and nothing about equal elements.  The lemmas below recover an
order for a part of the list whose keys are pairwise different.
-/

/-- The comparisons `std::sort` accepts. -/
structure StrictWeak {α : Type} (less : α → α → Bool) : Prop where
  asymm : ∀ a b, less a b = true → less b a = false
  cotrans : ∀ a b c, less a c = true → less a b = true ∨ less b c = true

/-- Any function with the contract of `std::sort`. -/
structure StdSort where
  sort : {α : Type} → (α → α → Bool) → List α → List α
  perm : ∀ {α : Type} (less : α → α → Bool) (items : List α), (sort less items).Perm items
  sorted : ∀ {α : Type} {less : α → α → Bool} (items : List α), StrictWeak less →
    (sort less items).Pairwise fun first second => less second first = false

/-- Insertion sort is one of them. -/
def StdSort.insertion : StdSort where
  sort less items := items.insertionSort fun first second => less second first = false
  perm less items := List.perm_insertionSort _ items
  sorted {α less} items weak := by
    have total : Std.Total fun first second => less second first = false := by
      refine ⟨fun a b => ?_⟩
      cases back : less b a with
      | false => exact .inl rfl
      | true => exact .inr (weak.asymm b a back)
    have trans : IsTrans α fun first second => less second first = false := by
      refine ⟨fun a b c first second => ?_⟩
      cases back : less c a with
      | false => rfl
      | true =>
          rcases weak.cotrans c b a back with earlier | earlier
          · rw [second] at earlier
            cases earlier
          · rw [first] at earlier
            cases earlier
    exact List.pairwise_insertionSort _ items

/-- A part of the list that is in strict order already stays as it is. -/
theorem StdSort.filter_sort {α : Type} (std : StdSort) {less : α → α → Bool}
    (weak : StrictWeak less) {keep : α → Bool} {items : List α}
    (ordered : (items.filter keep).Pairwise fun first second => less first second = true) :
    (std.sort less items).filter keep = items.filter keep := by
  have perm : ((std.sort less items).filter keep).Perm (items.filter keep) :=
    (std.perm less items).filter keep
  have symmetric : Std.Symm fun a b => less a b = true ∨ less b a = true :=
    ⟨fun _ _ either => either.symm⟩
  have comparable := (ordered.imp fun first => Or.inl first :
    (items.filter keep).Pairwise fun a b => less a b = true ∨ less b a = true).forall
  refine List.Perm.eq_of_pairwise ?_ ((std.sorted items weak).filter keep)
    (ordered.imp fun {a b} first => weak.asymm a b first) perm
  intro a b left right forward backward
  by_contra different
  rcases comparable (perm.mem_iff.mp left) right different with first | second
  · rw [first] at backward
    cases backward
  · rw [second] at forward
    cases forward

end Hogl.Data
