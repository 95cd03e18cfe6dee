import Hogl.Data.Nibbles
import Hogl.Record.Record
import Hogl.Recover.Rings
import Mathlib.Data.List.Nodup

namespace Hogl.Recover

open Hogl.Data Hogl.Ring

/-! # Records of a core dump

`recovery_engine::fixup_records` of `tools/recovery-engine.cc` on a 64-bit
build.  Records of different slots do not overlap.  `fixup_area` remembers its
results by address, so it is a function of the address here. -/

/-- `record` in the memory of the dead process. -/
structure ImageRecord where
  area : UInt64
  sect : BitVec 12
  argtype : BitVec 64
  argval : Nat → UInt64

/-- An argument word, or the pointer into loaded memory that was stored there. -/
inductive ArgWord where
  | value (word : UInt64)
  | pointer (target : HostPtr)
deriving Repr, DecidableEq

/-- A record while it is fixed up. -/
structure LoadedRecord where
  area : UInt64
  sect : BitVec 12
  argtype : BitVec 64
  argval : Nat → ArgWord

def ImageRecord.loaded (record : ImageRecord) : LoadedRecord :=
  { record with argval := fun index => .value (record.argval index) }

/-- The recovering process: its own addresses. -/
structure Process where
  address : HostPtr → UInt64
  specialArea : UInt64
  fixupArea : UInt64 → UInt64

namespace LoadedRecord

def getArgType (record : LoadedRecord) (index : Nat) : ArgType :=
  .ofNibble (nibble record.argtype index)

/-- `record::special()`. -/
def special (record : LoadedRecord) : Bool := record.area == 0 && record.sect == 0xfff

end LoadedRecord

def ArgWord.number (process : Process) : ArgWord → UInt64
  | .value word => word
  | .pointer target => process.address target

/-- What is stored for the result of `remap`. -/
def ArgWord.ofRemap : Option HostPtr → ArgWord
  | none => .value 0
  | some target => .pointer target

/-- The number of positions that `fixup_records` looks at. -/
def fixedArgs : Nat := 8

section Fixup

variable (process : Process) (sections : List Section)

def fixupArg (record : LoadedRecord) (index : Nat) : LoadedRecord :=
  match record.getArgType index with
  | .gstr =>
      let word := ArgWord.ofRemap (remap sections ((record.argval index).number process) 0)
      { record with argval := Function.update record.argval index word }
  | _ => record

/-- The body of the loop for one record. -/
def fixupRecord (record : LoadedRecord) : LoadedRecord :=
  if record.special then
    { record with
      area := process.specialArea
      -- the last of the three special sections
      sect := BitVec.ofNat 12 (min record.argtype.toNat 2)
      argtype := 0 }
  else
    (List.range fixedArgs).foldl (fixupArg process sections)
      { record with area := process.fixupArea record.area }

/-- The arguments that the body remaps. -/
def remapped (record : LoadedRecord) : List Nat :=
  if record.special then []
  else (List.range fixedArgs).filter fun index => record.getArgType index = .gstr

/-- The records of a ring with the arguments that were remapped so far. -/
structure Recovered where
  records : UInt32 → LoadedRecord
  remaps : List (UInt32 × Nat)

def Recovered.fixup (state : Recovered) (slot : UInt32) : Recovered :=
  { records := Function.update state.records slot
      (fixupRecord process sections (state.records slot))
    remaps := state.remaps ++ (remapped (state.records slot)).map fun index => (slot, index) }

def fixupFrom (mask : UInt32) : Nat → PopIterator → Recovered → Option Recovered
  | 0, _, _ => none
  | rounds + 1, iterator, state =>
      match iterator.next mask with
      | none => some state
      | some (slot, iterator) =>
          fixupFrom mask rounds iterator (state.fixup process sections slot)

/-- `fixup_records` on a ring whose records are still those of the image. -/
def fixupRecords (rounds : Nat) (ring : Ringbuf ImageRecord) : Option Recovered :=
  fixupFrom process sections ring.capacity rounds (.reset ring)
    { records := fun slot => (ring.slots slot).loaded, remaps := [] }

end Fixup

/-! ## One record -/

section Record

variable {process : Process} {sections : List Section}

theorem fixupArg_eq (record : LoadedRecord) (index : Nat) :
    fixupArg process sections record index =
      if record.getArgType index = .gstr then
        { record with
          argval := Function.update record.argval index
            (.ofRemap (remap sections ((record.argval index).number process) 0)) }
      else record := by
  rw [fixupArg]
  split
  · rename_i string
    rw [if_pos string]
  · rename_i other
    rw [if_neg other]

/-- The loop over the arguments replaces the strings among the first `count`. -/
theorem foldl_fixupArg (record : LoadedRecord) (count : Nat) :
    let after := (List.range count).foldl (fixupArg process sections) record
    after.argtype = record.argtype ∧
      ∀ index, after.argval index =
        if index < count ∧ record.getArgType index = .gstr then
          .ofRemap (remap sections ((record.argval index).number process) 0)
        else record.argval index := by
  induction count with
  | zero => exact ⟨rfl, fun index => (if_neg (fun both => absurd both.1 (Nat.not_lt_zero _))).symm⟩
  | succ count ih =>
      obtain ⟨types, values⟩ := ih
      simp only [List.range_succ, List.foldl_append, List.foldl_cons, List.foldl_nil]
      generalize (List.range count).foldl (fixupArg process sections) record = middle at types values
      have kept : middle.argval count = record.argval count := by
        rw [values, if_neg fun both => Nat.lt_irrefl _ both.1]
      have sameType : middle.getArgType count = record.getArgType count := by
        rw [LoadedRecord.getArgType, types, ← LoadedRecord.getArgType]
      rw [fixupArg_eq, sameType, kept]
      by_cases string : record.getArgType count = .gstr
      · rw [if_pos string]
        refine ⟨types, fun index => ?_⟩
        by_cases here : index = count
        · rw [here, if_pos ⟨Nat.lt_succ_self count, string⟩]
          exact Function.update_self _ _ _
        · have before : index < count + 1 ↔ index < count := by omega
          simp only [before]
          rw [← values]
          exact Function.update_of_ne here _ _
      · rw [if_neg string]
        refine ⟨types, fun index => ?_⟩
        by_cases here : index = count
        · rw [here, if_neg fun both => string both.2, kept]
        · have before : index < count + 1 ↔ index < count := by omega
          simp only [before]
          rw [← values]

theorem fixupRecord_argval {record : LoadedRecord} (normal : record.special = false) (index : Nat) :
    (fixupRecord process sections record).argval index =
      if index < fixedArgs ∧ record.getArgType index = .gstr then
        .ofRemap (remap sections ((record.argval index).number process) 0)
      else record.argval index := by
  rw [fixupRecord, normal, if_neg Bool.false_ne_true]
  exact (foldl_fixupArg _ _).2 index

theorem remapped_nodup (record : LoadedRecord) : (remapped record).Nodup := by
  rw [remapped]
  split
  · exact List.nodup_nil
  · exact List.nodup_range.filter _

end Record

/-! ## A whole ring -/

section Ring

variable {process : Process} {sections : List Section} {mask : UInt32}

theorem fixupFrom_eq (rounds : Nat) (iterator : PopIterator) (state : Recovered) :
    fixupFrom process sections mask rounds iterator state =
      (walk mask rounds iterator).map fun slots =>
        slots.foldl (Recovered.fixup process sections) state := by
  induction rounds generalizing iterator state with
  | zero => rfl
  | succ rounds ih =>
      rw [fixupFrom, walk]
      cases iterator.next mask with
      | none => rfl
      | some found =>
          dsimp only
          rw [ih, Option.map_map]
          rfl

/-- Each slot is fixed up from what the image holds there. -/
theorem foldl_fixup {slots : List UInt32} (distinct : slots.Nodup) (state : Recovered) :
    let after := slots.foldl (Recovered.fixup process sections) state
    (∀ slot ∈ slots, after.records slot = fixupRecord process sections (state.records slot)) ∧
      (∀ slot ∉ slots, after.records slot = state.records slot) ∧
      after.remaps = state.remaps ++ slots.flatMap fun slot =>
        (remapped (state.records slot)).map fun index => (slot, index) := by
  induction slots generalizing state with
  | nil => exact ⟨fun _ none => absurd none List.not_mem_nil, fun _ _ => rfl, (List.append_nil _).symm⟩
  | cons first rest ih =>
      obtain ⟨fresh, distinct'⟩ := List.nodup_cons.mp distinct
      obtain ⟨inside, outside, remaps⟩ := ih distinct' (state.fixup process sections first)
      have others {slot : UInt32} (different : slot ≠ first) :
          (state.fixup process sections first).records slot = state.records slot :=
        Function.update_of_ne different _ _
      refine ⟨?_, ?_, ?_⟩
      · intro slot member
        rw [List.foldl_cons]
        rcases List.mem_cons.mp member with rfl | behind
        · rw [outside slot fresh]
          exact Function.update_self _ _ _
        · rw [inside slot behind, others (fun same => fresh (same ▸ behind))]
      · intro slot absent
        rw [List.mem_cons, not_or] at absent
        rw [List.foldl_cons, outside slot absent.2, others absent.1]
      · rw [List.foldl_cons, remaps, List.flatMap_cons, ← List.append_assoc]
        congr 1
        apply List.flatMap_congr
        intro slot behind
        rw [others (fun same => fresh (same ▸ behind))]

theorem remaps_nodup {slots : List UInt32} (distinct : slots.Nodup)
    (records : UInt32 → LoadedRecord) :
    (slots.flatMap fun slot => (remapped (records slot)).map fun index => (slot, index)).Nodup := by
  rw [List.nodup_flatMap]
  constructor
  · intro slot _
    exact (remapped_nodup _).map fun first second same => (Prod.mk.inj same).2
  · refine distinct.imp ?_
    intro first second different pair left right
    obtain ⟨_, -, rfl⟩ := List.mem_map.mp left
    obtain ⟨_, -, same⟩ := List.mem_map.mp right
    exact different (Prod.mk.inj same).1.symm

/-- A string argument is null, or points to the loaded byte that the dead
process kept at the original address. -/
def StringOf (sections : List Section) (original : UInt64) (word : ArgWord) : Prop :=
  word = .value 0 ∨ ∃ sect ∈ sections, sect.Covers original 0 ∧
    word = .pointer { sect, offset := original - sect.vma }

theorem value_stringOf_iff {original : UInt64} :
    StringOf sections original (.value original) ↔ original = 0 := by
  constructor
  · intro either
    rcases either with null | ⟨sect, -, -, pointer⟩
    · exact ArgWord.value.inj null
    · cases pointer
  · intro null
    exact .inl (congrArg ArgWord.value null)

/-- A remapped address gives a string unless a section ends there. -/
theorem remap_stringOf_iff (image : CoreImage) (original : UInt64) :
    StringOf image.sections original (.ofRemap (remap image.sections original 0)) ↔
      ∀ sect ∈ image.sections, sect.stop ≠ original.toNat := by
  have bound := original.toNat_lt
  constructor
  · intro string sect member ends
    have positive := image.positive sect member
    have passes : sect.Passes original 0 := by
      rw [Section.Passes, ends, UInt64.toNat_zero, Nat.add_zero]
      rw [Section.stop] at ends
      omega
    cases found : remap image.sections original 0 with
    | none => exact remap_ne_none member passes found
    | some result =>
        rw [found] at string
        rcases string with null | ⟨holder, inside, covers, pointer⟩
        · cases null
        · rw [ArgWord.ofRemap, ArgWord.pointer.injEq] at pointer
          have holderEq : result.sect = holder := congrArg HostPtr.sect pointer
          have high := covers.2.1
          rw [← holderEq] at high
          rcases remap_first found member passes with same | before
          · rw [same] at high
            omega
          · rw [Section.stop] at ends
            omega
  · intro apart
    cases found : remap image.sections original 0 with
    | none => exact .inl rfl
    | some result =>
        obtain ⟨inside, passes, pointer⟩ := remap_some found
        refine .inr ⟨result.sect, inside, ?_, congrArg ArgWord.pointer pointer⟩
        obtain ⟨low, high⟩ := passes
        have different := apart result.sect inside
        have limit := image.inside result.sect inside
        have size := result.sect.size.toNat_lt
        rw [Section.Covers]
        rw [UInt64.toNat_zero, Nat.add_zero, Nat.mod_eq_of_lt bound] at high
        rw [UInt64.toNat_zero, Nat.add_zero]
        rcases Nat.lt_or_eq_of_le limit with below | last
        · rw [Nat.mod_eq_of_lt below] at high
          omega
        · rw [last, Nat.mod_self] at high
          rw [Section.stop] at last
          omega

/-- What the fixup makes of the strings in the records of a walk. -/
theorem fixupRecords_strings (process : Process) (image : CoreImage) {ring : Ringbuf ImageRecord}
    {rounds : Nat} {slots : List UInt32}
    (walked : walk ring.capacity rounds (.reset ring) = some slots) :
    ∃ after, fixupRecords process image.sections rounds ring = some after ∧
      after.remaps.Nodup ∧ ∀ slot ∈ slots, (ring.slots slot).loaded.special = false →
        ∀ index, (ring.slots slot).loaded.getArgType index = .gstr →
          (StringOf image.sections ((ring.slots slot).argval index)
              ((after.records slot).argval index) ↔
            if index < fixedArgs then
              ∀ sect ∈ image.sections, sect.stop ≠ ((ring.slots slot).argval index).toNat
            else (ring.slots slot).argval index = 0) := by
  have distinct := walk_nodup walked
  obtain ⟨inside, -, remaps⟩ := @foldl_fixup process image.sections slots distinct
    { records := fun slot => (ring.slots slot).loaded, remaps := [] }
  refine ⟨_, by rw [fixupRecords, fixupFrom_eq, walked]; rfl, ?_, ?_⟩
  · rw [remaps]
    exact remaps_nodup distinct _
  · intro slot member normal index string
    rw [inside slot member, fixupRecord_argval normal]
    by_cases early : index < fixedArgs
    · rw [if_pos ⟨early, string⟩, if_pos early]
      exact remap_stringOf_iff image _
    · rw [if_neg fun both => early both.1, if_neg early]
      exact value_stringOf_iff

/-- After the fixup of a ring, whatever its indices, every string of a record
that the iterator yields is null or remapped, each argument at most once,
exactly if the iterator reaches the tail, no section ends at a string of the
first eight arguments, and the strings behind them are null. -/
theorem strings_remapped_iff (process : Process) (image : CoreImage) (ring : Ringbuf ImageRecord) :
    (∃ rounds after slots,
      fixupRecords process image.sections rounds ring = some after ∧
      walk ring.capacity rounds (.reset ring) = some slots ∧ after.remaps.Nodup ∧
      ∀ slot ∈ slots, (ring.slots slot).loaded.special = false → ∀ index < Record.nargs,
        (ring.slots slot).loaded.getArgType index = .gstr →
          StringOf image.sections ((ring.slots slot).argval index)
            ((after.records slot).argval index)) ↔
    ∃ rounds slots, walk ring.capacity rounds (.reset ring) = some slots ∧
      ∀ slot ∈ slots, (ring.slots slot).loaded.special = false → ∀ index < Record.nargs,
        (ring.slots slot).loaded.getArgType index = .gstr →
          if index < fixedArgs then
            ∀ sect ∈ image.sections, sect.stop ≠ ((ring.slots slot).argval index).toNat
          else (ring.slots slot).argval index = 0 := by
  constructor
  · intro ⟨rounds, after, slots, fixes, walked, _, strings⟩
    obtain ⟨after', fixes', -, word⟩ := fixupRecords_strings process image walked
    rw [fixes, Option.some.injEq] at fixes'
    refine ⟨rounds, slots, walked, ?_⟩
    intro slot member normal index inside string
    rw [← word slot member normal index string, ← fixes']
    exact strings slot member normal index inside string
  · intro ⟨rounds, slots, walked, clean⟩
    obtain ⟨after, fixes, once, word⟩ := fixupRecords_strings process image walked
    refine ⟨rounds, after, slots, fixes, walked, once, ?_⟩
    intro slot member normal index inside string
    rw [word slot member normal index string]
    exact clean slot member normal index inside string

end Ring

section NinthArgument

/-- Nine arguments, the last one a global string. -/
def nineArguments : ImageRecord where
  area := 0x1800
  sect := 0
  argtype := 0x811111111
  argval index := if index = 8 then 0x1004 else 0

/-- A ring with this record in its first slot. -/
def nineArgumentsRing : RingImage ImageRecord where
  ring := ((History.fresh 3 false fun _ => nineArguments).run [.push nineArguments]).ring
  prio := 10
  recShift := 8
  recTailroom := 224
  name := 0x1000
  recTop := 0x2000

def nineArgumentsImage : CoreImage where
  sections := [{ vma := 0x1000, size := 0x2000, addr := some [], abfd := .core }]
  positive := by decide
  inside := by decide
  apart := by decide

def recoverer : Process where
  address _ := 0x7000
  specialArea := 0x6000
  fixupArea area := area

/-- The string is in loaded memory, and the record keeps its old address. -/
theorem ninth_string_not_remapped :
    ∃ fixed after,
      nineArgumentsRing.fixup nineArgumentsImage.sections false = some fixed ∧
      walk fixed.ring.capacity 4 (.reset fixed.ring) = some [0] ∧
      fixupRecords recoverer nineArgumentsImage.sections 4 fixed.ring = some after ∧
      (fixed.ring.slots 0).loaded.special = false ∧
      (fixed.ring.slots 0).loaded.getArgType 8 = .gstr ∧
      (after.records 0).argval 8 = .value 0x1004 ∧
      ¬ StringOf nineArgumentsImage.sections 0x1004 ((after.records 0).argval 8) := by
  refine ⟨_, _, rfl, rfl, rfl, rfl, by decide, by decide, ?_⟩
  change ¬ StringOf nineArgumentsImage.sections 0x1004 (.value 0x1004)
  rw [value_stringOf_iff]
  decide

end NinthArgument

end Hogl.Recover
