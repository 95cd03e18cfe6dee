import Mathlib.Data.List.Induction
import Hogl.Data.Histories

namespace Hogl.Data

universe u v

/-! # Runs of a step function

A machine takes actions one after another.  A property of every run is
derived from what one action preserves, possibly relative to an assumption
on the run that, once broken, stays broken.
-/

variable {σ : Type u} {α : Type v} (step : σ → α → σ)

def runs (start : σ) (actions : List α) : σ := actions.foldl step start

@[simp] theorem runs_nil (start : σ) : runs step start [] = start := rfl

theorem runs_concat (start : σ) (actions : List α) (last : α) :
    runs step start (actions ++ [last]) = step (runs step start actions) last := by
  rw [runs, List.foldl_append]
  rfl

variable {step}

theorem runs_invariant {Inv : σ → Prop} {start : σ} (initial : Inv start)
    (preserved : ∀ state action, Inv state → Inv (step state action)) (actions : List α) :
    Inv (runs step start actions) := by
  induction actions using List.reverseRecOn with
  | nil => exact initial
  | append_singleton actions last ih =>
      rw [runs_concat]
      exact preserved _ last ih

/-- An invariant that one action preserves while `Good` holds afterwards, in
states for which `Kept` is known. -/
theorem runs_invariant_of {Kept Good Inv : σ → Prop} {start : σ}
    (kept : ∀ actions, Kept (runs step start actions))
    (earlier : ∀ state action, Kept state → Good (step state action) → Good state)
    (initial : Good start → Inv start)
    (preserved : ∀ state action, Kept state → Good (step state action) → Inv state →
      Inv (step state action))
    (actions : List α) (good : Good (runs step start actions)) :
    Inv (runs step start actions) := by
  induction actions using List.reverseRecOn with
  | nil => exact initial good
  | append_singleton actions last ih =>
      rw [runs_concat] at good ⊢
      have before := kept actions
      exact preserved _ last before good (ih (earlier _ last before good))

/-- An invariant that every action keeps unless it is of a bad kind holds
along every run without actions of that kind. -/
theorem runs_invariant_unless {Inv : σ → Prop} {Breaks : σ → α → Prop} {start : σ}
    (initial : Inv start)
    (kept : ∀ state action, Inv state → ¬ Breaks state action → Inv (step state action))
    (actions : List α)
    (clean : AtEach (fun earlier action => ¬ Breaks (runs step start earlier) action) actions) :
    Inv (runs step start actions) := by
  induction actions using List.reverseRecOn with
  | nil => exact initial
  | append_singleton actions last ih =>
      rw [runs_concat]
      exact kept _ last (ih clean.of_append) (clean actions last [] rfl)

/-- Where one kind of action alone breaks `Safe`, and always breaks it, the
runs that stay safe are those in which no action is of that kind. -/
theorem runs_safe_iff {Known Safe : σ → Prop} {Breaks : σ → α → Prop} {start : σ}
    (known : ∀ actions, Known (runs step start actions)) (initial : Safe start)
    (kept : ∀ state action, Known state → Safe state → ¬ Breaks state action →
      Safe (step state action))
    (broken : ∀ state action, Known state → Breaks state action → ¬ Safe (step state action))
    (actions : List α) :
    (∀ earlier, earlier <+: actions → Safe (runs step start earlier)) ↔
    AtEach (fun earlier action => ¬ Breaks (runs step start earlier) action) actions := by
  constructor
  · intro safe earlier action later split breaks
    apply broken _ action (known earlier) breaks
    rw [← runs_concat step start earlier action]
    exact safe _ ⟨later, by rw [split, List.append_assoc, List.singleton_append]⟩
  · rintro clean earlier ⟨later, rfl⟩
    replace clean := clean.of_append
    clear later
    induction earlier using List.reverseRecOn with
    | nil => exact initial
    | append_singleton earlier last ih =>
        rw [runs_concat]
        exact kept _ last (known earlier) (ih clean.of_append) (clean earlier last [] rfl)

/-- Steps of one kind bring a busy machine closer to rest, the other steps do
not take it further away: enough steps of that kind bring it to rest, however
the others are mixed in. -/
theorem runs_settles {Inv Busy : σ → Prop} {rank : σ → Nat} {works : α → Bool} {start : σ}
    (kept : ∀ state action, Inv state → Busy state → Inv (step state action))
    (positive : ∀ state, Inv state → Busy state → 0 < rank state)
    (drops : ∀ state action, Inv state → Busy state → works action →
      rank (step state action) < rank state)
    (bounded : ∀ state action, Inv state → Busy state → works action = false →
      rank (step state action) ≤ rank state)
    (initial : Inv start) (actions : List α) (enough : rank start ≤ actions.countP works) :
    ∃ earlier later, actions = earlier ++ later ∧ earlier.countP works ≤ rank start ∧
      Inv (runs step start earlier) ∧ ¬ Busy (runs step start earlier) := by
  induction actions generalizing start with
  | nil =>
      refine ⟨[], [], rfl, Nat.zero_le _, initial, fun busy => ?_⟩
      exact absurd (positive start initial busy) (Nat.not_lt.mpr enough)
  | cons action rest ih =>
      by_cases busy : Busy start
      · have next := kept start action initial busy
        cases kind : works action with
        | true =>
            have less := drops start action initial busy kind
            rw [List.countP_cons_of_pos kind] at enough
            obtain ⟨earlier, later, rfl, few, holds, rests⟩ := ih next (by omega)
            refine ⟨action :: earlier, later, rfl, ?_, holds, rests⟩
            rw [List.countP_cons_of_pos kind]
            omega
        | false =>
            have more := bounded start action initial busy kind
            rw [List.countP_cons_of_neg (by rw [kind]; exact Bool.false_ne_true)] at enough
            obtain ⟨earlier, later, rfl, few, holds, rests⟩ := ih next (by omega)
            refine ⟨action :: earlier, later, rfl, ?_, holds, rests⟩
            rw [List.countP_cons_of_neg (by rw [kind]; exact Bool.false_ne_true)]
            omega
      · exact ⟨[], action :: rest, rfl, Nat.zero_le _, initial, busy⟩

end Hogl.Data
