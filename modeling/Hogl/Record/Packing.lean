import Hogl.Record.Copies

namespace Hogl

open Hogl.Data

/-! # Argument lists

The slots and the type word a list needs, and what `populate` packs. -/

namespace Arg

/-- Where the next data argument goes once `arg` has been stored at `offset`. -/
def advance (tailroom offset : Nat) (arg : Arg) : Nat :=
  offset + (arg.image (tailroom - offset)).length

/-- The number of value slots a list needs: up to its last argument that is
not `NONE`. -/
def slotsUsed : List Arg → Nat
  | [] => 0
  | arg :: args => if arg = .none ∧ slotsUsed args = 0 then 0 else slotsUsed args + 1

theorem slotsUsed_le (args : List Arg) : slotsUsed args ≤ args.length := by
  induction args with
  | nil => exact Nat.le_refl 0
  | cons arg args ih =>
      simp only [slotsUsed, List.length_cons]
      split <;> omega

theorem getD_of_slotsUsed_le {args : List Arg} {index : Nat} (beyond : slotsUsed args ≤ index) :
    args.getD index .none = .none := by
  induction args generalizing index with
  | nil => rfl
  | cons arg args ih =>
      simp only [slotsUsed] at beyond
      split at beyond
      · rename_i unused
        cases index with
        | zero => simpa using unused.1
        | succ index => simpa using ih (by omega)
      · cases index with
        | zero => omega
        | succ index => simpa using ih (by omega)

theorem eq_none_of_slotsUsed {args : List Arg} (unused : slotsUsed args = 0) :
    ∀ arg ∈ args, arg = .none := by
  intro arg member
  obtain ⟨index, found⟩ := List.getElem?_of_mem member
  have unset := @getD_of_slotsUsed_le args index (by omega)
  rwa [List.getD_eq_getElem?_getD, found] at unset

theorem advance_le {tailroom offset : Nat} (below : offset ≤ tailroom) (arg : Arg) :
    offset ≤ arg.advance tailroom offset ∧ arg.advance tailroom offset ≤ tailroom := by
  have bound := arg.image_length_le (tailroom - offset)
  simp only [advance]
  omega

/-- The type nibbles of a list, merged into a word from `index` on. -/
def typeWord : List Arg → Nat → BitVec 64 → BitVec 64
  | [], _, word => word
  | arg :: args, index, word => typeWord args (index + 1) (orNibble word index arg.type.code)

theorem nibble_typeWord_before {args : List Arg} {index other : Nat} {word : BitVec 64}
    (before : other < index) : nibble (typeWord args index word) other = nibble word other := by
  induction args generalizing index word with
  | nil => rfl
  | cons arg args ih =>
      rw [typeWord, ih (by omega), nibble_orNibble_other _ _ (by omega)]

theorem nibble_typeWord (args : List Arg) (index offset : Nat) {word : BitVec 64}
    (inside : index + offset < 16) (clear : ∀ other, index ≤ other → nibble word other = 0) :
    nibble (typeWord args index word) (index + offset) = (args.getD offset .none).type.code := by
  induction args generalizing index offset word with
  | nil =>
      rw [typeWord, clear _ (Nat.le_add_right _ _)]
      rfl
  | cons arg args ih =>
      cases offset with
      | zero =>
          rw [Nat.add_zero, typeWord, nibble_typeWord_before (Nat.lt_add_one index),
            nibble_orNibble_same _ _ (by omega), clear index (Nat.le_refl _)]
          simp
      | succ offset =>
          rw [typeWord, show index + (offset + 1) = index + 1 + offset by omega,
            ih (index + 1) offset (by omega)]
          · rfl
          · intro other above
            rw [nibble_orNibble_other _ _ (by omega), clear other (by omega)]

end Arg

namespace Argpack

theorem word_eq_zero_of_nibbles {word : BitVec 64} (clear : ∀ index < 16, nibble word index = 0) :
    word = 0 := by
  apply BitVec.eq_of_getLsbD_eq
  intro bit bound
  have field := congrArg (·[bit % 4]) (clear (bit / 4) (by omega))
  simp only [nibble_getElem _ _ (show bit % 4 < 4 by omega)] at field
  rw [show bit = 4 * (bit / 4) + bit % 4 by omega, field]
  simp

theorem nibble_shiftRight (word : BitVec 64) (index : Nat) :
    nibble (word >>> 4) index = nibble word (index + 1) := by
  rw [nibble, nibble, ← BitVec.shiftRight_add, Nat.mul_add, Nat.add_comm 4]

/-- The shift loop of `nargs` stops right after the last nonzero nibble. -/
theorem nargsFrom_eq {fuel : Nat} {word : BitVec 64} {args : List Arg} (enough : args.length ≤ fuel)
    (types : ∀ index, nibble word index = (args.getD index .none).type.code) :
    nargsFrom fuel word = Arg.slotsUsed args := by
  induction args generalizing fuel word with
  | nil =>
      have zero : word = 0 := word_eq_zero_of_nibbles fun index _ => types index
      cases fuel <;> simp [nargsFrom, zero, Arg.slotsUsed]
  | cons arg args ih =>
      cases fuel with
      | zero => simp at enough
      | succ fuel =>
          have rest : nargsFrom fuel (word >>> 4) = Arg.slotsUsed args :=
            ih (by simpa using enough) fun index => by
              rw [nibble_shiftRight, types]
              rfl
          have first : nibble word 0 = arg.type.code := types 0
          by_cases unused : arg = .none ∧ Arg.slotsUsed args = 0
          · have zero : word = 0 := word_eq_zero_of_nibbles fun index _ => by
              rw [types, Arg.getD_of_slotsUsed_le (by simp [Arg.slotsUsed, unused])]
              rfl
            simp [nargsFrom, zero, Arg.slotsUsed, unused]
          · have nonzero : word ≠ 0 := by
              intro zero
              apply unused
              subst word
              have shifted : nargsFrom fuel (0 >>> 4 : BitVec 64) = 0 := by
                cases fuel <;> simp [nargsFrom]
              exact ⟨(Arg.type_code_eq_zero_iff arg).mp (first.symm.trans (nibble_zero 0)),
                rest.symm.trans shifted⟩
            simp only [nargsFrom, nonzero, if_false, rest, Arg.slotsUsed, unused]

/-- What the pack holds for an argument at its position. -/
def Carries (pack : Argpack) (index : Nat) : Arg → Prop
  | .none => True
  | .value type val =>
      if type.argType.is32bit then (pack.argval index).toNat % 2 ^ 32 = val.toNat % 2 ^ 32
      else pack.argval index = val
  | arg => pack.argptr index = arg ∧ pack.arglen index = arg.len

theorem orNibble_zero (word : BitVec 64) (index : Nat) : orNibble word index 0 = word := by
  simp [orNibble]

theorem setArg_argtype (pack : Argpack) (index : Nat) (arg : Arg) :
    (pack.setArg index arg).1.argtype = orNibble pack.argtype index arg.type.code := by
  cases arg with
  | none => exact (orNibble_zero _ _).symm
  | value | cstr | raw | xdump => rfl

theorem setArg_carries (pack : Argpack) (index : Nat) (arg : Arg) :
    (pack.setArg index arg).1.Carries index arg := by
  cases arg with
  | none => trivial
  | value type val =>
      by_cases narrow : type.argType.is32bit = true
      · have old := (pack.argval index).toNat_lt
        simp only [Carries, setArg, narrow, if_true, Function.update_self, UInt64.toNat_ofNat']
        omega
      · simp [Carries, setArg, narrow]
  | cstr | raw | xdump => simp [Carries, setArg]

theorem setArg_carries_other {pack : Argpack} {index other : Nat} {held : Arg} (arg : Arg)
    (different : other ≠ index) (carries : pack.Carries other held) :
    (pack.setArg index arg).1.Carries other held := by
  cases arg with
  | none => exact carries
  | value | cstr | raw | xdump =>
      cases held with
      | none => trivial
      | value | cstr | raw | xdump =>
          simpa [Carries, setArg, Function.update_of_ne different] using carries

theorem populateFrom_carries_other {args : List Arg} {index other : Nat} {pack : Argpack}
    {held : Arg} (before : other < index) (carries : pack.Carries other held) :
    (populateFrom args index pack).1.Carries other held := by
  induction args generalizing index pack with
  | nil => exact carries
  | cons arg args ih =>
      exact ih (by omega) (setArg_carries_other arg (by omega) carries)

theorem populateFrom_carries {args : List Arg} {offset : Nat} {arg : Arg} (index : Nat)
    (pack : Argpack) (found : args[offset]? = some arg) :
    (populateFrom args index pack).1.Carries (index + offset) arg := by
  induction args generalizing index offset pack with
  | nil => simp at found
  | cons first args ih =>
      cases offset with
      | zero =>
          simp only [List.getElem?_cons_zero, Option.some.injEq] at found
          subst first
          exact @populateFrom_carries_other args (index + 1) _ _ _ (Nat.lt_add_one index)
            (setArg_carries pack index arg)
      | succ offset =>
          have carried := ih (index + 1) (pack.setArg index first).1
            (by simpa using found)
          rwa [show index + 1 + offset = index + (offset + 1) by omega] at carried

theorem populateFrom_argtype (args : List Arg) (index : Nat) (pack : Argpack) :
    (populateFrom args index pack).1.argtype = Arg.typeWord args index pack.argtype := by
  induction args generalizing index pack with
  | nil => rfl
  | cons arg args ih =>
      change (populateFrom args (index + 1) (pack.setArg index arg).1).1.argtype = _
      rw [ih, setArg_argtype]
      rfl

/-- The inline encoder is chosen only when every argument is simple. -/
theorem simple_of_populateFrom {args : List Arg} {index : Nat} {pack : Argpack}
    (none_complex : (populateFrom args index pack).2 = 0) :
    ∀ arg ∈ args, arg = .none ∨ ∃ type val, arg = .value type val := by
  induction args generalizing index pack with
  | nil => intro arg member; cases member
  | cons first args ih =>
      change (pack.setArg index first).2 + (populateFrom args (index + 1) _).2 = 0 at none_complex
      obtain ⟨firstZero, restZero⟩ := Nat.add_eq_zero_iff.mp none_complex
      intro arg member
      rcases List.mem_cons.mp member with rfl | later
      · cases arg with
        | none => exact .inl rfl
        | value type val => exact .inr ⟨type, val, rfl⟩
        | cstr | raw | xdump => simp [setArg] at firstZero
      · exact ih restZero arg later

theorem populate_types (scratch : Argpack) {args : List Arg} {index : Nat} (inside : index < 16) :
    nibble (scratch.populate args).1.argtype index = (args.getD index .none).type.code := by
  rw [populate, populateFrom_argtype]
  have types := Arg.nibble_typeWord args 0 index (by omega) (fun other _ => nibble_zero other)
  rwa [Nat.zero_add] at types

/-- The out-of-line encoder reserves the slots up to the last argument. -/
theorem populate_nargs (scratch : Argpack) {args : List Arg} (few : args.length ≤ 16) :
    (scratch.populate args).1.nargs = Arg.slotsUsed args := by
  apply nargsFrom_eq few
  intro position
  by_cases inside : position < 16
  · rw [scratch.populate_types inside]
  · rw [List.getD_eq_default _ _ (by omega)]
    apply BitVec.eq_of_getElem_eq
    intro bit bound
    rw [nibble_getElem _ _ bound, BitVec.getLsbD_of_ge _ _ (by omega)]
    simp [Arg.type, ArgType.code]

theorem populateFrom_none {args : List Arg} (unset : ∀ arg ∈ args, arg = .none) (index : Nat)
    (pack : Argpack) : (populateFrom args index pack).2 = 0 := by
  induction args generalizing index pack with
  | nil => rfl
  | cons arg args ih =>
      obtain ⟨rfl, rest⟩ := List.forall_mem_cons.mp unset
      change 0 + (populateFrom args (index + 1) pack).2 = 0
      rw [ih rest]

end Argpack

end Hogl
