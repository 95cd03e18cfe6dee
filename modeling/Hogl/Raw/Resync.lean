import Hogl.Raw.Cook

namespace Hogl.Raw.Cook

open Hogl.Data

/-! # Finding the records behind a bad prefix

Every attempt inside the prefix has to end at an invalid name; one that runs
into the end of the file instead is the last. -/

variable {settings : Settings} {file : List UInt8} {strings : UInt64 → List UInt8}

/-- The bytes of a file with something else in front of its records. -/
def behindPrefix (strings : UInt64 → List UInt8) (garbage : List UInt8) (items : List FormatData) :
    List UInt8 :=
  garbage ++ items.flatMap (pack strings)

/-- No record is read at an offset below `bound`. -/
def Garbled (file : List UInt8) (memory : Nat → Memory settings) (bound : Nat) : Prop :=
  ∀ offset < bound, ∀ data after,
    ((memory offset).parser (file.drop offset)).next settings.version ≠ some (some data, after)

/-- The run emits these records and does not give up. -/
def Recovers (strings : UInt64 → List UInt8) (items : List FormatData) (run : Run) : Prop :=
  List.Forall₂ (SameRecord strings) items (run.emitted.map Emission.data) ∧ run.ending ≠ .gaveUp

/-! ## Attempts -/

theorem recordAfter_eq_none_iff (least : Record.byteSize ≤ settings.maxRecordSize.toNat)
    (memory : Memory settings) (offset : Nat) :
    recordAfter settings file offset = none ↔ ∀ data after,
      (memory.parser (file.drop offset)).next settings.version ≠ some (some data, after) := by
  have follows := Parser.next_follows settings.version (memory.ready (file.drop offset)) least
    settings.maxRecordSize.toNat_lt (memory.clean _)
  rw [show (memory.parser (file.drop offset)).input = file.drop offset from rfl] at follows
  rw [recordAfter]
  cases read : reading settings.version settings.maxRecordSize.toNat (file.drop offset) with
  | record rest =>
      rw [read] at follows
      obtain ⟨data, after, done, -⟩ := follows
      constructor
      · intro none
        cases none
      · intro never
        exact absurd done (never data after)
  | overrun =>
      rw [read] at follows
      refine ⟨fun _ data after done => ?_, fun _ => rfl⟩
      rw [show _ = none from follows] at done
      cases done
  | ended | invalid | cut =>
      rw [read] at follows
      obtain ⟨after, done, -⟩ := follows
      refine ⟨fun _ data after' done' => ?_, fun _ => rfl⟩
      rw [done] at done'
      cases done'

/-- An attempt at which no record starts emits nothing, and is not the last
one exactly if it ends at an invalid name. -/
theorem reprocess_garbled (least : Record.byteSize ≤ settings.maxRecordSize.toNat)
    (memory : Memory settings) {offset : Nat}
    (absent : recordAfter settings file offset = none) :
    (reprocess file memory offset).emitted = [] ∧
      ((reprocess file memory offset).verdict = .retry ↔
        invalidName (file.drop offset) = true) := by
  obtain ⟨ranges, restarts⟩ := @reprocess_spec settings file least memory offset
  have reached : ahead (recordAfter settings file) 0 offset = some offset := rfl
  constructor
  · rw [row, trail, absent] at ranges
    exact List.map_eq_nil_iff.mp ranges
  · rw [restarts, startsOver_iff reached absent, reading_eq_invalid_iff]
    refine and_iff_left fun enough => enough.1 ?_
    exact UInt32.toNat_inj.mp (Nat.le_zero.mp enough.2)

theorem fetch_items {items : List FormatData} {parser : Parser} {fuel : Nat}
    (ready : parser.Ready settings.maxRecordSize.toNat) (ok : parser.failed = false)
    (packable : ∀ item ∈ items, Packable strings settings.maxRecordSize.toNat item)
    (input : parser.input = items.flatMap (pack strings)) (enough : items.length < fuel) :
    ∃ emitted stop after, fetch file .v1_1 fuel parser = (emitted, stop, .returned after) ∧
      List.Forall₂ (SameRecord strings) items (emitted.map Emission.data) ∧
      after.failed = false := by
  induction items generalizing parser fuel with
  | nil =>
      obtain ⟨fuel, rfl⟩ := Nat.exists_eq_succ_of_ne_zero (Nat.ne_of_gt enough)
      obtain ⟨after, ended, afterOk, -⟩ := Parser.next_short .v1_1 ok
        (by rw [input]; exact Nat.zero_lt_succ _)
      refine ⟨[], count file parser, after, ?_, .nil, afterOk⟩
      simp only [fetch, ended]
  | cons item items ih =>
      obtain ⟨fuel, rfl⟩ := Nat.exists_eq_succ_of_ne_zero (Nat.ne_of_gt (Nat.zero_lt_of_lt enough))
      rw [List.flatMap_cons] at input
      obtain ⟨data, after, read, same, afterOk, afterInput, afterReady⟩ := next_packed ready
        settings.maxRecordSize.toNat_lt ok (packable item (by simp)) input
      obtain ⟨emitted, stop, final, fetched, sames, finalOk⟩ := ih afterReady afterOk
        (fun other member => packable other (by simp [member])) afterInput
        (Nat.lt_of_succ_lt_succ enough)
      refine ⟨⟨count file parser, count file after, data⟩ :: emitted, stop, final, ?_,
        .cons same sames, finalOk⟩
      simp only [fetch, read, fetched]

theorem length_le_packed (strings : UInt64 → List UInt8) (items : List FormatData) :
    items.length ≤ (items.flatMap (pack strings)).length := by
  induction items with
  | nil => exact Nat.zero_le _
  | cons item items ih =>
      rw [List.flatMap_cons, List.length_append, List.length_cons, pack]
      simp only [List.length_append, leBytes_length]
      omega

/-- The attempt at the first record emits all of them. -/
theorem reprocess_items (garbage : List UInt8) {items : List FormatData}
    (version : settings.version = .v1_1)
    (least : Record.byteSize ≤ settings.maxRecordSize.toNat)
    (packable : ∀ item ∈ items, Packable strings settings.maxRecordSize.toNat item)
    (memory : Memory settings) :
    let attempt := reprocess (behindPrefix strings garbage items) memory garbage.length
    List.Forall₂ (SameRecord strings) items (attempt.emitted.map Emission.data) ∧
      attempt.verdict = .done := by
  intro attempt
  have size := length_le_packed strings items
  obtain ⟨emitted, stop, after, fetched, same, ok⟩ := @fetch_items settings
    (behindPrefix strings garbage items) strings items (memory.parser
      ((behindPrefix strings garbage items).drop garbage.length))
    ((behindPrefix strings garbage items).length + 1) (memory.ready _) rfl packable
    List.drop_left (by rw [behindPrefix, List.length_append]; omega)
  have result : attempt = { emitted, complaint := none, verdict := .done } := by
    simp only [attempt, reprocess, Nat.not_lt.mpr least, version, fetched, ok, if_false,
      Bool.false_eq_true]
  rw [result]
  exact ⟨same, rfl⟩

/-! ## The search -/

theorem processFrom_skip (memory : Nat → Memory settings) (left count : Nat) {offset : Nat}
    (silent : ∀ tried, offset ≤ tried → tried < offset + count →
      (reprocess file (memory tried) tried).emitted = [] ∧
        (reprocess file (memory tried) tried).verdict = .retry) :
    (processFrom file memory (count + left) offset).emitted =
        (processFrom file memory left (offset + count)).emitted ∧
      (processFrom file memory (count + left) offset).ending =
        (processFrom file memory left (offset + count)).ending := by
  induction count generalizing offset with
  | zero => simp
  | succ count ih =>
      obtain ⟨nothing, retry⟩ := silent offset (Nat.le_refl _) (by omega)
      obtain ⟨emitted, ending⟩ := @ih (offset + 1) fun tried lower upper =>
        silent tried (by omega) (by omega)
      rw [show offset + (count + 1) = offset + 1 + count by omega,
        show count + 1 + left = (count + left) + 1 by omega, processFrom]
      simp only [retry, nothing, List.nil_append]
      exact ⟨emitted, ending⟩

variable {memory : Nat → Memory settings} {bound : Nat}

/-- The first attempt that does not end at an invalid name is the last one. -/
theorem process_blocked (short : bound ≤ settings.maxRecordSize.toNat)
    (garbled : Garbled file memory bound)
    (blocked : ∃ offset < bound, invalidName (file.drop offset) = false) :
    (process file memory).emitted = [] ∧ (process file memory).ending ≠ .gaveUp := by
  by_cases small : settings.maxRecordSize.toNat < Record.byteSize
  · obtain ⟨nothing, crashed⟩ := process_small small memory
    exact ⟨nothing, by rw [crashed]; exact Ending.noConfusion⟩
  have least := Nat.le_of_not_lt small
  -- `stop` is the first offset of this kind.
  obtain ⟨stop, ⟨inside, valid⟩, first⟩ : ∃ stop, (stop < bound ∧
      invalidName (file.drop stop) = false) ∧ ∀ earlier < stop,
        ¬ (earlier < bound ∧ invalidName (file.drop earlier) = false) :=
    ⟨Nat.find blocked, Nat.find_spec blocked, fun _ => Nat.find_min blocked⟩
  have absent : ∀ offset < bound, recordAfter settings file offset = none :=
    fun offset below => (recordAfter_eq_none_iff least (memory offset) offset).mpr
      (garbled offset below)
  obtain ⟨emitted, ending⟩ := @processFrom_skip settings file memory
    (settings.maxRecordSize.toNat - stop + 1) stop 0 fun tried _ below => by
      rw [Nat.zero_add] at below
      obtain ⟨nothing, retry⟩ := reprocess_garbled least (memory tried)
        (absent tried (Nat.lt_trans below inside))
      refine ⟨nothing, retry.mpr ?_⟩
      by_contra other
      exact first tried below ⟨Nat.lt_trans below inside, Bool.eq_false_iff.mpr other⟩
  rw [process, show settings.maxRecordSize.toNat + 1 =
    stop + (settings.maxRecordSize.toNat - stop + 1) by omega, emitted, ending, Nat.zero_add,
    processFrom]
  obtain ⟨nothing, retry⟩ := reprocess_garbled least (memory stop) (absent stop inside)
  cases verdict : (reprocess file (memory stop) stop).verdict with
  | retry =>
      rw [retry.mp verdict] at valid
      cases valid
  | done => exact ⟨nothing, by simp⟩
  | crashed => exact ⟨nothing, by simp⟩

/-- Where every attempt in the prefix ends at an invalid name the search gets
to the records. -/
theorem process_aligned {garbage : List UInt8} {items : List FormatData}
    (version : settings.version = .v1_1)
    (least : Record.byteSize ≤ settings.maxRecordSize.toNat)
    (short : garbage.length ≤ settings.maxRecordSize.toNat)
    (packable : ∀ item ∈ items, Packable strings settings.maxRecordSize.toNat item)
    (garbled : Garbled (behindPrefix strings garbage items) memory garbage.length)
    (invalid : ∀ offset < garbage.length,
      invalidName ((behindPrefix strings garbage items).drop offset) = true) :
    Recovers strings items (process (behindPrefix strings garbage items) memory) := by
  obtain ⟨emitted, ending⟩ := @processFrom_skip settings (behindPrefix strings garbage items) memory
    (settings.maxRecordSize.toNat - garbage.length + 1) garbage.length 0 fun tried _ below => by
      rw [Nat.zero_add] at below
      obtain ⟨nothing, retry⟩ := reprocess_garbled least (memory tried)
        ((recordAfter_eq_none_iff least (memory tried) tried).mpr (garbled tried below))
      exact ⟨nothing, retry.mpr (invalid tried below)⟩
  obtain ⟨same, done⟩ := reprocess_items garbage version least packable (memory garbage.length)
  rw [process, show settings.maxRecordSize.toNat + 1 =
    garbage.length + (settings.maxRecordSize.toNat - garbage.length + 1) by omega, Recovers,
    emitted, ending, Nat.zero_add, processFrom]
  simp only [done]
  exact ⟨same, by simp⟩

/-- The records behind a prefix in which nothing is read as a record are
emitted exactly when the parser meets an invalid name at every offset of it. -/
theorem recovers_iff {garbage : List UInt8} {items : List FormatData}
    (version : settings.version = .v1_1)
    (short : garbage.length ≤ settings.maxRecordSize.toNat)
    (packable : ∀ item ∈ items, Packable strings settings.maxRecordSize.toNat item)
    (garbled : Garbled (behindPrefix strings garbage items) memory garbage.length) :
    Recovers strings items (process (behindPrefix strings garbage items) memory) ↔
      items = [] ∨ ∀ offset < garbage.length,
        invalidName ((behindPrefix strings garbage items).drop offset) = true := by
  by_cases blocked : ∃ offset < garbage.length,
      invalidName ((behindPrefix strings garbage items).drop offset) = false
  · obtain ⟨nothing, kept⟩ := process_blocked short garbled blocked
    rw [Recovers, nothing]
    constructor
    · intro ⟨same, _⟩
      cases same
      exact .inl rfl
    · rintro (rfl | invalid)
      · exact ⟨.nil, kept⟩
      · obtain ⟨offset, below, valid⟩ := blocked
        rw [invalid offset below] at valid
        cases valid
  · have invalid : ∀ offset < garbage.length,
        invalidName ((behindPrefix strings garbage items).drop offset) = true := by
      intro offset below
      by_contra valid
      exact blocked ⟨offset, below, Bool.eq_false_iff.mpr valid⟩
    refine iff_of_true ?_ (.inr invalid)
    by_cases small : settings.maxRecordSize.toNat < Record.byteSize
    · cases items with
      | nil =>
          obtain ⟨nothing, crashed⟩ := @process_small settings (behindPrefix strings garbage [])
            small memory
          rw [Recovers, nothing, crashed]
          exact ⟨.nil, Ending.noConfusion⟩
      | cons item items =>
          have room := (packable item (by simp)).fits
          omega
    · exact process_aligned version (Nat.le_of_not_lt small) short packable garbled invalid

/-- Three zeros in front of four records. -/
theorem recovers_behind_zeros : Recovers (fun _ => []) (List.replicate 4 greeting)
    (process (behindPrefix (fun _ => []) [0, 0, 0] (List.replicate 4 greeting))
      fun _ => blankMemory defaults) := by
  refine (recovers_iff rfl (by decide) ?_ ?_).mpr (.inr (by decide +kernel))
  · intro item member
    rw [List.eq_of_mem_replicate member]
    exact greeting_packable (by decide)
  · intro offset below
    refine (recordAfter_eq_none_iff (by decide) (blankMemory defaults) offset).mp ?_
    revert offset
    decide +kernel

/-- The prefix ends with a length that leads behind the end of the file. -/
def longLength : List UInt8 := List.replicate 16 0 ++ [255]

theorem long_length_stops : ¬ ∀ (settings : Settings) (strings : UInt64 → List UInt8)
    (memory : Nat → Memory settings) (garbage : List UInt8) (items : List FormatData),
    settings.version = .v1_1 → garbage.length ≤ settings.maxRecordSize.toNat →
    settings.minValidRecs.toNat ≤ items.length →
    (∀ item ∈ items, Packable strings settings.maxRecordSize.toNat item) →
    Garbled (behindPrefix strings garbage items) memory garbage.length →
    Recovers strings items (process (behindPrefix strings garbage items) memory) := by
  intro recovers
  let memory : Nat → Memory defaults := fun _ => blankMemory defaults
  have garbled : Garbled (behindPrefix (fun _ => []) longLength (List.replicate 4 greeting)) memory
      longLength.length := by
    intro offset below
    refine (recordAfter_eq_none_iff (by decide) (blankMemory defaults) offset).mp ?_
    revert offset
    decide +kernel
  have blocked := process_blocked (by decide) garbled ⟨0, by decide, by decide +kernel⟩
  obtain ⟨same, -⟩ := recovers defaults (fun _ => []) memory longLength (List.replicate 4 greeting)
    rfl (by decide) (by decide)
    (fun item member => by
      rw [List.eq_of_mem_replicate member]
      exact greeting_packable (by decide))
    garbled
  rw [blocked.1] at same
  cases same

end Hogl.Raw.Cook
