import Mathlib.Data.List.Induction

namespace Hogl.Data

universe u v w

/-! # Lists of overriding rules

Each rule gives its own value to the keys it covers; later rules override
earlier ones, and a key that no rule covers keeps what it had. -/

variable {ρ : Type u} {κ : Type v} {ν : Type w} (covers : ρ → κ → Bool) (value : ρ → ν)

def override (rules : List ρ) (start : κ → ν) : κ → ν :=
  rules.foldl (fun current rule key => if covers rule key then value rule else current key) start

/-- The last rule that covers a key. -/
def lastCovering (rules : List ρ) (key : κ) : Option ρ := rules.reverse.find? (covers · key)

theorem override_append (first second : List ρ) (start : κ → ν) :
    override covers value (first ++ second) start =
      override covers value second (override covers value first start) :=
  List.foldl_append

theorem override_eq_last (rules : List ρ) (start : κ → ν) (key : κ) :
    override covers value rules start key =
      ((lastCovering covers rules key).map value).getD (start key) := by
  induction rules using List.reverseRecOn with
  | nil => rfl
  | append_singleton rules last ih =>
      rw [override_append, lastCovering, List.reverse_concat, List.find?_cons]
      change (if covers last key then value last else override covers value rules start key) = _
      cases covers last key with
      | true => rfl
      | false =>
          rw [ih]
          rfl

theorem override_idem (rules : List ρ) (start : κ → ν) :
    override covers value rules (override covers value rules start) =
      override covers value rules start := by
  funext key
  rw [override_eq_last, override_eq_last]
  cases lastCovering covers rules key <;> rfl

end Hogl.Data
