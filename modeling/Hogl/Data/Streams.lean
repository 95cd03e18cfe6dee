import Mathlib.Data.List.Basic

namespace Hogl.Data

universe u v

/-! # Streams of encoded items

A stream is the encodings of its items one behind the other.  Wherever it is
cut, some of the items are there as a whole and the cut leaves less than the
next one behind them.
-/

variable {α : Type u} {β : Type v}

theorem cut_flatMap (encode : α → List β) (items : List α) {stream : List β}
    (cut : stream <+: items.flatMap encode) :
    ∃ whole missing left, items = whole ++ missing ∧ stream = whole.flatMap encode ++ left ∧
      (missing = [] → left = []) ∧
      ∀ next ∈ missing.head?, left <+: encode next ∧ left ≠ encode next := by
  induction items generalizing stream with
  | nil =>
      refine ⟨[], [], [], rfl, ?_, fun _ => rfl, by simp⟩
      exact List.prefix_nil.mp cut
  | cons item items ih =>
      rw [List.flatMap_cons] at cut
      by_cases short : stream.length < (encode item).length
      · refine ⟨[], item :: items, stream, rfl, rfl, fun none => ?_, ?_⟩
        · cases none
        · intro next isNext
          obtain rfl : item = next := Option.some.inj isNext
          refine ⟨List.prefix_of_prefix_length_le cut (List.prefix_append _ _)
            (Nat.le_of_lt short), ?_⟩
          rintro rfl
          exact absurd short (Nat.lt_irrefl _)
      · obtain ⟨rest, rfl⟩ := List.prefix_of_prefix_length_le (List.prefix_append _ _) cut
          (Nat.le_of_not_lt short)
        obtain ⟨whole, missing, left, rfl, rfl, empty, next⟩ :=
          ih ((List.prefix_append_right_inj _).mp cut)
        refine ⟨item :: whole, missing, left, rfl, ?_, empty, next⟩
        rw [List.flatMap_cons, List.append_assoc]

end Hogl.Data
