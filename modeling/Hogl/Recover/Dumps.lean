import Hogl.Data.KeyedSets
import Hogl.Record.Record
import Hogl.Recover.Rings

namespace Hogl.Recover

open Hogl.Data Hogl.Ring

/-! # Dumping the records

`recovery_engine::dump_records` of `tools/recovery-engine.cc`.  The records of
all rings go through one `std::set`, whose order is handed to the format. -/

/-- `record_entry`; a record is named by its slot, a ring by its place in the
list of rings. -/
structure RecordEntry where
  ring : Nat
  slot : UInt32
  record : Record
deriving Repr, DecidableEq

/-- `record_sorter`. -/
def recordSorter (first second : RecordEntry) : Bool :=
  first.record.timestamp < second.record.timestamp

/-- What the iterator of a ring yields, if it reaches the tail. -/
def ringEntries (rounds number : Nat) (ring : FixedRing Record) : Option (List RecordEntry) :=
  (walk ring.ring.capacity rounds (.reset ring.ring)).map fun slots =>
    slots.map fun slot => { ring := number, slot, record := ring.ring.slots slot }

/-- What the iterators yield, ring by ring. -/
def yieldedFrom (rounds : Nat) : Nat → List (FixedRing Record) → Option (List RecordEntry)
  | _, [] => some []
  | number, ring :: rings => do
      let entries ← ringEntries rounds number ring
      let rest ← yieldedFrom rounds (number + 1) rings
      return entries ++ rest

/-- The two loops that fill the set. -/
def insertFrom (rounds : Nat) :
    Nat → List (FixedRing Record) → List RecordEntry → Option (List RecordEntry)
  | _, [], records => some records
  | number, ring :: rings, records => do
      let entries ← ringEntries rounds number ring
      insertFrom rounds (number + 1) rings (setCollect recordSorter records entries)

/-- The records in the order in which the format gets them. -/
def dumpRecords (rounds : Nat) (rings : List (FixedRing Record)) : Option (List RecordEntry) :=
  insertFrom rounds 0 rings []

theorem recordSorter_weak : StrictWeak recordSorter where
  asymm first second less := by
    rw [recordSorter, decide_eq_true_iff, UInt64.lt_iff_toNat_lt] at less
    rw [recordSorter, decide_eq_false_iff_not, UInt64.lt_iff_toNat_lt]
    omega
  cotrans first second third less := by
    simp only [recordSorter, decide_eq_true_iff, UInt64.lt_iff_toNat_lt] at less ⊢
    omega

theorem recordSorter_either (first second : RecordEntry) :
    recordSorter first second = true ∨ recordSorter second first = true ↔
      first.record.timestamp ≠ second.record.timestamp := by
  simp only [recordSorter, decide_eq_true_iff, UInt64.lt_iff_toNat_lt, ne_eq, ← UInt64.toNat_inj]
  omega

theorem insertFrom_eq (rounds number : Nat) (rings : List (FixedRing Record))
    (records : List RecordEntry) :
    insertFrom rounds number rings records =
      (yieldedFrom rounds number rings).map (setCollect recordSorter records) := by
  induction rings generalizing number records with
  | nil => rfl
  | cons ring rings ih =>
      rw [insertFrom, yieldedFrom]
      cases ringEntries rounds number ring with
      | none => rfl
      | some entries =>
          simp only [Option.bind_eq_bind, Option.bind_some, ih]
          cases yieldedFrom rounds (number + 1) rings with
          | none => rfl
          | some rest =>
              simp only [Option.bind_some, Option.map_some, Option.pure_def, setCollect_append]

/-- The format gets every record of the iterators once, in the order of the
timestamps, exactly if the iterators end and no two of these records have one
timestamp. -/
theorem dump_once_iff (rings : List (FixedRing Record)) :
    (∃ rounds entries dumped, yieldedFrom rounds 0 rings = some entries ∧
      dumpRecords rounds rings = some dumped ∧ dumped.Perm entries ∧ dumped.Nodup ∧
      dumped.Pairwise fun first second => first.record.timestamp ≤ second.record.timestamp) ↔
    ∃ rounds entries, yieldedFrom rounds 0 rings = some entries ∧
      entries.Pairwise fun first second => first.record.timestamp ≠ second.record.timestamp := by
  have distinct (entries : List RecordEntry) : (entries.Pairwise fun first second =>
      recordSorter first second = true ∨ recordSorter second first = true) ↔
      entries.Pairwise fun first second => first.record.timestamp ≠ second.record.timestamp :=
    ⟨fun either => either.imp (recordSorter_either _ _).mp,
      fun other => other.imp (recordSorter_either _ _).mpr⟩
  constructor
  · intro dumps
    obtain ⟨rounds, entries, dumped, yields, dump, perm, -⟩ := dumps
    rw [dumpRecords, insertFrom_eq, yields] at dump
    cases dump
    exact ⟨rounds, entries, yields, (distinct entries).mp
      ((setCollect_perm_iff recordSorter_weak entries).mp perm)⟩
  · intro apart
    obtain ⟨rounds, entries, yields, different⟩ := apart
    have sorted := setCollect_sorted recordSorter_weak entries List.Pairwise.nil
    refine ⟨rounds, entries, setCollect recordSorter [] entries, yields, ?_, ?_, ?_, ?_⟩
    · rw [dumpRecords, insertFrom_eq, yields]
      rfl
    · exact (setCollect_perm_iff recordSorter_weak entries).mpr ((distinct entries).mpr different)
    · refine sorted.imp fun {first second} less same => ?_
      rw [same, recordSorter_weak.irrefl] at less
      cases less
    · refine sorted.imp fun {first second} less => ?_
      rw [recordSorter, decide_eq_true_iff] at less
      exact UInt64.le_of_lt less

/-- A ring of four slots with two records posted at one time. -/
def twins : RingImage Record where
  ring :=
    { capacity := 3
      tail := 2
      head := 3
      seqnum := 2
      dropcnt := 0
      blocking := false
      slots := fun slot => ⟨none, 7, BitVec.ofNat 52 slot.toNat, 0, 0, []⟩ }
  prio := 10
  recShift := 8
  recTailroom := 224
  name := 0x1000
  recTop := 0x2000

/-- The second of them is equivalent to the first and not dumped. -/
theorem twin_not_dumped : ∃ fixed entries dumped,
    twins.fixup [{ vma := 0x1000, size := 0x2000, addr := some [], abfd := .core }] false =
      some fixed ∧
    yieldedFrom 4 0 [fixed] = some entries ∧ dumpRecords 4 [fixed] = some dumped ∧
    ¬ dumped.Perm entries := by
  obtain ⟨fixed, entries, dumped, accepted, yields, dump, two, one⟩ : ∃ fixed entries dumped,
    twins.fixup [{ vma := 0x1000, size := 0x2000, addr := some [], abfd := .core }] false =
      some fixed ∧
    yieldedFrom 4 0 [fixed] = some entries ∧ dumpRecords 4 [fixed] = some dumped ∧
    entries.length = 2 ∧ dumped.length = 1 := ⟨_, _, _, rfl, rfl, rfl, rfl, rfl⟩
  refine ⟨fixed, entries, dumped, accepted, yields, dump, fun perm => ?_⟩
  have same := perm.length_eq
  rw [one, two] at same
  cases same

end Hogl.Recover
