import Mathlib.Data.Nat.ModEq
import Mathlib.Logic.Function.Basic

namespace Hogl.Data

universe u

/-! # A wheel of slots

Values are numbered through and written into a fixed number of slots in turn;
the slot of a number is its remainder.  What was written under a number is
there until somebody has got a whole turn beyond it. -/

structure Numbered (α : Type u) where
  number : Nat
  value : α
deriving Repr, DecidableEq

variable {α : Type u}

/-- The slots hold the items, the newest of which comes first.  Nothing was
written under a number above `tried`. -/
structure Wheel (size tried : Nat) (slots : Nat → α) (items : List (Numbered α)) : Prop where
  falling : items.Pairwise fun newer older => older.number < newer.number
  known : ∀ item ∈ items, item.number ≤ tried
  kept : ∀ item ∈ items, tried < item.number + size → slots (item.number % size) = item.value

/-- Two numbers of one turn have different slots. -/
theorem slot_ne {size low high : Nat} (above : low < high) (near : high < low + size) :
    low % size ≠ high % size := by
  intro same
  have whole := Nat.sub_mod_eq_zero_of_mod_eq same.symm
  rw [Nat.mod_eq_of_lt (by omega)] at whole
  omega

namespace Wheel

variable {size tried number : Nat} {slots : Nat → α} {item : Numbered α}
  {items front back : List (Numbered α)}

/-- A wheel that was turned further. -/
theorem mono (wheel : Wheel size tried slots items) {later : Nat} (further : tried ≤ later) :
    Wheel size later slots items where
  falling := wheel.falling
  known item member := Nat.le_trans (wheel.known item member) further
  kept item member near := wheel.kept item member (by omega)

/-- Anything may be written under a number above those of the items. -/
theorem overwrite (wheel : Wheel size tried slots items)
    (above : ∀ item ∈ items, item.number < number) (known : number ≤ tried) (value : α) :
    Wheel size tried (Function.update slots (number % size) value) items := by
  refine ⟨wheel.falling, wheel.known, fun item member near => ?_⟩
  have below := above item member
  rw [Function.update_of_ne (slot_ne below (by omega))]
  exact wheel.kept item member near

/-- What was written becomes the newest item. -/
theorem push (wheel : Wheel size tried slots items) (above : ∀ item ∈ items, item.number < number)
    (known : number ≤ tried) {value : α} (holds : slots (number % size) = value) :
    Wheel size tried slots (⟨number, value⟩ :: items) where
  falling := List.pairwise_cons.mpr ⟨above, wheel.falling⟩
  known := List.forall_mem_cons.mpr ⟨known, wheel.known⟩
  kept := List.forall_mem_cons.mpr ⟨fun _ => holds, wheel.kept⟩

/-- An item and its slot change together, as long as no newer item has the
slot. -/
theorem change (wheel : Wheel size tried slots (front ++ item :: back))
    (near : ∀ newer ∈ front, newer.number < item.number + size) (value : α) :
    Wheel size tried (Function.update slots (item.number % size) value)
      (front ++ { item with value } :: back) := by
  have falling := wheel.falling
  obtain ⟨-, behind, across⟩ := List.pairwise_append.mp falling
  have older := (List.pairwise_cons.mp behind).1
  refine ⟨?_, fun other member => ?_, fun other member recent => ?_⟩
  · simpa only [List.pairwise_append, List.pairwise_cons, List.forall_mem_cons] using falling
  · rcases List.mem_append.mp member with newer | here
    · exact wheel.known other (List.mem_append_left _ newer)
    · rcases List.mem_cons.mp here with rfl | left
      · exact wheel.known item (List.mem_append_right _ List.mem_cons_self)
      · exact wheel.known other (List.mem_append_right _ (List.mem_cons_of_mem _ left))
  · rcases List.mem_append.mp member with newer | here
    · have above := across other newer item List.mem_cons_self
      rw [Function.update_of_ne (slot_ne above (near other newer)).symm]
      exact wheel.kept other (List.mem_append_left _ newer) recent
    · rcases List.mem_cons.mp here with rfl | left
      · exact Function.update_self _ _ _
      · have below := older other left
        have known := wheel.known item (List.mem_append_right _ List.mem_cons_self)
        rw [Function.update_of_ne (slot_ne below (by omega))]
        exact wheel.kept other (List.mem_append_right _ (List.mem_cons_of_mem _ left)) recent

/-- The newest item is given up. -/
theorem tail (wheel : Wheel size tried slots (item :: items)) : Wheel size tried slots items where
  falling := (List.pairwise_cons.mp wheel.falling).2
  known other member := wheel.known other (List.mem_cons_of_mem _ member)
  kept other member := wheel.kept other (List.mem_cons_of_mem _ member)

theorem below (wheel : Wheel size tried slots (item :: items)) :
    ∀ older ∈ items, older.number < item.number :=
  (List.pairwise_cons.mp wheel.falling).1

end Wheel

end Hogl.Data
