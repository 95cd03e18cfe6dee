import Mathlib.Logic.Function.Basic

namespace Hogl.Data

universe u

/-! # Taking turns

Threads that pass through a section under one lock.  `inside` tells of each
thread whether it has passed the lock and not yet given it back; a section
without a lock is used by one thread alone. -/

variable {θ : Type u}

/-- The lock is held by the thread that is inside, or only `sole` ever enters. -/
def Turns (locked : Bool) (sole : θ) (holder : Option θ) (inside : θ → Bool) : Prop :=
  if locked then ∀ thread, inside thread = true ↔ holder = some thread
  else ∀ thread, inside thread = true → thread = sole

namespace Turns

variable {locked : Bool} {sole thread other : θ} {holder : Option θ} {inside : θ → Bool}

theorem alone (turns : Turns locked sole holder inside) (first : inside thread = true)
    (second : inside other = true) : thread = other := by
  cases locked with
  | true =>
      have held := ((turns thread).mp first).symm.trans ((turns other).mp second)
      exact Option.some.inj held
  | false => exact (turns thread first).trans (turns other second).symm

theorem outside_of_ne (turns : Turns locked sole holder inside) (first : inside thread = true)
    (different : other ≠ thread) : inside other = false := by
  cases second : inside other with
  | false => rfl
  | true => exact absurd (turns.alone second first) different

/-- Nobody is inside while the lock is free, or while the one thread is out. -/
theorem nobody (turns : Turns locked sole holder inside)
    (free : if locked then holder = none else inside sole = false) (thread : θ) :
    inside thread = false := by
  cases entered : inside thread with
  | false => rfl
  | true =>
      cases locked with
      | true => cases ((turns thread).mp entered).symm.trans free
      | false =>
          have out := turns thread entered
          subst out
          cases entered.symm.trans free

variable [DecidableEq θ]

/-- A thread takes the free lock, or the one thread enters. -/
theorem enter (turns : Turns locked sole holder inside)
    (free : if locked then holder = none else thread = sole) :
    Turns locked sole (if locked then some thread else holder)
      (Function.update inside thread true) := by
  cases locked with
  | true =>
      intro other
      by_cases same : other = thread
      · subst same
        simp
      · have out := turns.nobody free other
        simp [Function.update_of_ne same, out, Ne.symm same]
  | false =>
      intro other entered
      by_cases same : other = thread
      · exact same.trans free
      · rw [Function.update_of_ne same] at entered
        exact turns other entered

/-- The thread that is inside gives the lock back. -/
theorem leave (turns : Turns locked sole holder inside) (entered : inside thread = true) :
    Turns locked sole (if locked then none else holder) (Function.update inside thread false) := by
  have empty (other : θ) : Function.update inside thread false other = false := by
    by_cases same : other = thread
    · subst same
      exact Function.update_self other false inside
    · rw [Function.update_of_ne same]
      exact turns.outside_of_ne entered same
  cases locked with
  | true =>
      intro other
      simp [empty other]
  | false =>
      intro other back
      exact absurd back (by simp [empty other])

end Turns

end Hogl.Data
