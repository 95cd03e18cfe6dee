import Mathlib.Data.List.Basic

namespace Hogl.Data

universe u

/-! # Readers that ask for their input

A reader takes what it asks for from the front of a stream.  Where the stream
has less than that, the reader says how much of its last request is missing.
A steady reader does the same on every longer stream, and goes on missing the
rest of a request that is met in part.
-/

variable {α β γ : Type u}

abbrev Reader (α β : Type u) : Type u := StateT (List α) (Except Nat) β

/-- A request for so many items. -/
def ask (count : Nat) : Reader α (List α) := fun input =>
  if count ≤ input.length then .ok (input.take count, input.drop count)
  else .error (count - input.length)

theorem ask_enough {count : Nat} {input : List α} (enough : count ≤ input.length) :
    ask count input = .ok (input.take count, input.drop count) := if_pos enough

theorem ask_eq_ok {count : Nat} {input value rest : List α}
    (taken : ask count input = .ok (value, rest)) :
    count ≤ input.length ∧ value = input.take count ∧ rest = input.drop count := by
  rw [ask] at taken
  split at taken
  · cases taken
    exact ⟨by assumption, rfl, rfl⟩
  · cases taken

theorem ask_short {count : Nat} {input : List α} (short : input.length < count) :
    ask count input = .error (count - input.length) := if_neg (Nat.not_le.mpr short)

namespace Reader

theorem bind_taken {first : Reader α β} {second : β → Reader α γ} {input rest : List α} {value : β}
    (taken : first input = .ok (value, rest)) : (first >>= second) input = second value rest := by
  change (first input >>= fun pair => second pair.1 pair.2) = _
  rw [taken]
  rfl

theorem bind_missing {first : Reader α β} {second : β → Reader α γ} {input : List α} {count : Nat}
    (missing : first input = .error count) : (first >>= second) input = .error count := by
  change (first input >>= fun pair => second pair.1 pair.2) = _
  rw [missing]
  rfl

/-- No request of the reader is for more than `most` items. -/
structure Steady (most : Nat) (reader : Reader α β) : Prop where
  taken : ∀ {input rest : List α} {value : β}, reader input = .ok (value, rest) →
    ∀ more, reader (input ++ more) = .ok (value, rest ++ more)
  missing : ∀ {input : List α} {count : Nat}, reader input = .error count →
    0 < count ∧ count ≤ most ∧
      ∀ more : List α, more.length < count → reader (input ++ more) = .error (count - more.length)

variable {most : Nat}

theorem steady_pure (value : β) : Steady most (pure value : Reader α β) where
  taken found _ := by
    cases found
    rfl
  missing found := nomatch found

theorem steady_ask {count : Nat} (few : count ≤ most) :
    Steady most (ask count : Reader α (List α)) where
  taken {input rest value} found more := by
    obtain ⟨enough, rfl, rfl⟩ := ask_eq_ok found
    rw [ask_enough (Nat.le_trans enough (List.prefix_append _ _).length_le),
      List.take_append_of_le_length enough, List.drop_append_of_le_length enough]
  missing {input left} found := by
    rw [ask] at found
    split at found
    · cases found
    · rename_i short
      cases found
      refine ⟨by omega, by omega, fun more fewer => ?_⟩
      rw [ask_short (by rw [List.length_append]; omega), List.length_append]
      congr 1
      omega

theorem Steady.bind {first : Reader α β} {second : β → Reader α γ} (before : Steady most first)
    (behind : ∀ input value rest, first input = .ok (value, rest) → Steady most (second value)) :
    Steady most (first >>= second) where
  taken {input rest value} found more := by
    cases here : first input with
    | error count =>
        rw [bind_missing here] at found
        cases found
    | ok pair =>
        obtain ⟨middle, left⟩ := pair
        rw [bind_taken here] at found
        rw [bind_taken (before.taken here more)]
        exact (behind _ middle left here).taken found more
  missing {input count} found := by
    cases here : first input with
    | error count' =>
        rw [bind_missing here] at found
        cases found
        obtain ⟨positive, few, still⟩ := before.missing here
        exact ⟨positive, few, fun more fewer => bind_missing (still more fewer)⟩
    | ok pair =>
        obtain ⟨middle, left⟩ := pair
        rw [bind_taken here] at found
        obtain ⟨positive, few, still⟩ := (behind _ middle left here).missing found
        refine ⟨positive, few, fun more fewer => ?_⟩
        rw [bind_taken (before.taken here more)]
        exact still more fewer

end Reader

end Hogl.Data
