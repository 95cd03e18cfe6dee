import Mathlib.Data.List.Nodup
import Mathlib.Data.List.Pairwise

namespace Hogl.Data

universe u v

/-! # Following a partial step

A partial function is followed from a point until it is undefined, and a
search starts over at the next number for as long as it is told to. -/

section Trails

variable {α : Type u} (step : α → Option α)

/-- The point `count` steps behind `start`. -/
def ahead : Nat → α → Option α
  | 0, start => some start
  | count + 1, start => (step start).bind (ahead count)

/-- The points from `start` on at which the step is defined, at most `fuel` of them. -/
def trail : Nat → α → List α
  | 0, _ => []
  | fuel + 1, start =>
      match step start with
      | none => []
      | some next => start :: trail fuel next

variable {step} {measure : α → Nat}
  (decreasing : ∀ {start next}, step start = some next → measure next < measure start)
include decreasing

theorem measure_ahead {count : Nat} {start point : α}
    (reached : ahead step count start = some point) : measure point ≤ measure start := by
  induction count generalizing start with
  | zero =>
      cases reached
      exact Nat.le_refl _
  | succ count ih =>
      obtain ⟨next, stepped, onward⟩ := Option.bind_eq_some_iff.mp reached
      exact Nat.le_of_lt (Nat.lt_of_le_of_lt (ih onward) (decreasing stepped))

theorem mem_trail {fuel : Nat} {start point : α} (enough : measure start < fuel) :
    point ∈ trail step fuel start ↔
      (∃ count, ahead step count start = some point) ∧ (step point).isSome = true := by
  induction fuel generalizing start with
  | zero => exact absurd enough (Nat.not_lt_zero _)
  | succ fuel ih =>
      cases stepped : step start with
      | none =>
          simp only [trail, stepped, List.not_mem_nil, false_iff, not_and]
          intro ⟨count, reached⟩
          cases count with
          | zero =>
              cases reached
              rw [stepped]
              exact Bool.false_ne_true
          | succ count =>
              rw [ahead, stepped] at reached
              cases reached
      | some next =>
          have smaller := decreasing stepped
          simp only [trail, stepped, List.mem_cons, @ih next (by omega)]
          constructor
          · rintro (rfl | ⟨⟨count, reached⟩, defined⟩)
            · exact ⟨⟨0, rfl⟩, by rw [stepped]; rfl⟩
            · exact ⟨⟨count + 1, by rw [ahead, stepped]; exact reached⟩, defined⟩
          · intro ⟨⟨count, reached⟩, defined⟩
            cases count with
            | zero =>
                cases reached
                exact .inl rfl
            | succ count =>
                rw [ahead, stepped] at reached
                exact .inr ⟨⟨count, reached⟩, defined⟩

theorem trail_nodup {fuel : Nat} {start : α} (enough : measure start < fuel) :
    (trail step fuel start).Nodup := by
  induction fuel generalizing start with
  | zero => exact absurd enough (Nat.not_lt_zero _)
  | succ fuel ih =>
      cases stepped : step start with
      | none => simp [trail, stepped]
      | some next =>
          have smaller := decreasing stepped
          simp only [trail, stepped, List.nodup_cons]
          refine ⟨fun member => ?_, ih (by omega)⟩
          obtain ⟨⟨count, reached⟩, -⟩ := (mem_trail decreasing (by omega)).mp member
          have below := measure_ahead decreasing reached
          omega

omit decreasing in
theorem ahead_unique {first second : Nat} {start last other : α}
    (reached : ahead step first start = some last) (ended : step last = none)
    (reached' : ahead step second start = some other) (ended' : step other = none) :
    first = second ∧ last = other := by
  induction first generalizing second start with
  | zero =>
      cases reached
      cases second with
      | zero =>
          cases reached'
          exact ⟨rfl, rfl⟩
      | succ second =>
          rw [ahead, ended] at reached'
          cases reached'
  | succ first ih =>
      obtain ⟨next, stepped, onward⟩ := Option.bind_eq_some_iff.mp reached
      cases second with
      | zero =>
          cases reached'
          rw [stepped] at ended'
          cases ended'
      | succ second =>
          rw [ahead, stepped] at reached'
          obtain ⟨same, equal⟩ := ih onward reached'
          exact ⟨congrArg Nat.succ same, equal⟩

end Trails

section Tries

variable {β : Type v} (again : Nat → Bool)

/-- The numbers tried from `start` on, at most `left` of them. -/
def tries : Nat → Nat → List Nat
  | 0, _ => []
  | left + 1, start => start :: if again start then tries left (start + 1) else []

variable {again}

theorem mem_tries {left start point : Nat} :
    point ∈ tries again left start ↔ start ≤ point ∧ point < start + left ∧
      ∀ earlier, start ≤ earlier → earlier < point → again earlier = true := by
  induction left generalizing start with
  | zero =>
      simp only [tries, List.not_mem_nil, false_iff]
      omega
  | succ left ih =>
      rw [tries, List.mem_cons]
      constructor
      · rintro (rfl | later)
        · exact ⟨Nat.le_refl _, by omega, fun earlier lower upper => by omega⟩
        · split at later
          · rename_i restarted
            obtain ⟨lower, upper, all⟩ := ih.mp later
            refine ⟨by omega, by omega, fun earlier above below => ?_⟩
            rcases Nat.eq_or_lt_of_le above with rfl | behind
            · exact restarted
            · exact all earlier behind below
          · cases later
      · intro ⟨lower, upper, all⟩
        rcases Nat.eq_or_lt_of_le lower with rfl | behind
        · exact .inl rfl
        · right
          rw [if_pos (all start (Nat.le_refl _) behind)]
          exact ih.mpr ⟨behind, by omega, fun earlier above below =>
            all earlier (by omega) below⟩

theorem tries_sorted (left start : Nat) : (tries again left start).Pairwise (· < ·) := by
  induction left generalizing start with
  | zero => exact .nil
  | succ left ih =>
      rw [tries, List.pairwise_cons]
      constructor
      · intro point member
        split at member
        · exact (mem_tries.mp member).1
        · cases member
      · split
        · exact ih (start + 1)
        · exact .nil

/-- What all tries together list has no duplicates exactly when no two of them
have an element in common. -/
theorem nodup_tries_flatMap {found : Nat → List β} (each : ∀ start, (found start).Nodup)
    (left start : Nat) :
    ((tries again left start).flatMap found).Nodup ↔
      ∀ first second, start ≤ first → first < second → second ∈ tries again left start →
        (found first).Disjoint (found second) := by
  rw [List.nodup_flatMap]
  constructor
  · intro ⟨_, apart⟩ first second lower before member
    have earlier : first ∈ tries again left start := by
      obtain ⟨-, upper, all⟩ := mem_tries.mp member
      exact mem_tries.mpr ⟨lower, by omega, fun other above below => all other above (by omega)⟩
    have symmetric : Std.Symm (Function.onFun List.Disjoint found) :=
      ⟨fun _ _ disjoint => List.disjoint_symm disjoint⟩
    exact apart.forall earlier member (Nat.ne_of_lt before)
  · intro apart
    refine ⟨fun point _ => each point, ?_⟩
    refine (tries_sorted left start).imp_of_mem fun {one two} first second before => ?_
    exact apart one two (mem_tries.mp first).1 before second

end Tries

end Hogl.Data
