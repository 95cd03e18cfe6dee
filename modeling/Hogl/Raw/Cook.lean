import Hogl.Data.Trails
import Hogl.Raw.Readings
import Hogl.Raw.RoundTrip

namespace Hogl.Raw

open Hogl.Data

/-! # hogl-cook

`reprocess` and `process` of `tools/cook.cc` on a regular file that is not
being followed.  Every attempt opens the file again and builds a new parser. -/

namespace Cook

/-- The settings from the command line. -/
structure Settings where
  version : Version
  maxRecordSize : UInt32
  minValidRecs : UInt32
deriving Repr, DecidableEq

variable (settings : Settings) (file : List UInt8)

/-- The buffers of a new parser, with whatever the allocator left in them. -/
def Memory : Type := { parser : Parser // parser.Ready settings.maxRecordSize.toNat }

/-- A record that was handed to the format handler, and the bytes it was read from. -/
structure Emission where
  start : Nat
  stop : Nat
  data : FormatData
deriving Repr, DecidableEq

def Emission.range (emission : Emission) : Nat × Nat := (emission.start, emission.stop)

inductive Halt where
  | returned (parser : Parser)
  | overrun
  | exhausted

inductive Verdict where
  | done
  | retry
  | crashed
deriving Repr, DecidableEq

structure Attempt where
  emitted : List Emission
  /-- The error text and the offset that go to `stderr`. -/
  complaint : Option (String × Nat)
  verdict : Verdict

inductive Ending where
  | done
  | gaveUp
  | crashed
deriving Repr, DecidableEq

structure Run where
  emitted : List Emission
  complaints : List (String × Nat)
  ending : Ending

variable {settings}

/-- The parser of an attempt. -/
def Memory.parser (memory : Memory settings) (input : List UInt8) : Parser :=
  { memory.val with input, failed := false, error := "" }

/-- `in.count()`. -/
def count (parser : Parser) : Nat := file.length - parser.input.length

/-- The loop of `reprocess`, with the offset of the record at which it stops. -/
def fetch (version : Version) : Nat → Parser → List Emission × Nat × Halt
  | 0, parser => ([], count file parser, .exhausted)
  | fuel + 1, parser =>
      match parser.next version with
      | none => ([], count file parser, .overrun)
      | some (none, after) => ([], count file parser, .returned after)
      | some (some data, after) =>
          let (emitted, offset, halt) := fetch version fuel after
          (⟨count file parser, count file after, data⟩ :: emitted, offset, halt)

/-- One attempt.  The parser uses its buffer as a whole record, so a smaller
one is an overrun from the start. -/
def reprocess (memory : Memory settings) (offset : Nat) : Attempt :=
  if settings.maxRecordSize.toNat < Record.byteSize then
    { emitted := [], complaint := none, verdict := .crashed }
  else
    -- A record takes at least one byte, so the fuel is never used up.
    let (emitted, offset, halt) :=
      fetch file settings.version (file.length + 1) (memory.parser (file.drop offset))
    match halt with
    | .overrun | .exhausted => { emitted, complaint := none, verdict := .crashed }
    | .returned parser =>
        if parser.failed then
          { emitted
            complaint := some (parser.error, offset)
            verdict :=
              if settings.minValidRecs ≠ 0 ∧ settings.minValidRecs.toNat ≤ emitted.length then
                .done
              else if parser.blamesFormat then .retry
              else .done }
        else { emitted, complaint := none, verdict := .done }

/-- The loop of `process`, with the attempts that are left. -/
def processFrom (memory : Nat → Memory settings) : Nat → Nat → Run
  | 0, _ => { emitted := [], complaints := [], ending := .gaveUp }
  | left + 1, offset =>
      let attempt := reprocess file (memory offset) offset
      match attempt.verdict with
      | .done =>
          { emitted := attempt.emitted, complaints := attempt.complaint.toList, ending := .done }
      | .crashed =>
          { emitted := attempt.emitted, complaints := attempt.complaint.toList
            ending := .crashed }
      | .retry =>
          let rest := processFrom memory left (offset + 1)
          { rest with
            emitted := attempt.emitted ++ rest.emitted
            complaints := attempt.complaint.toList ++ rest.complaints }

/-- Attempts at the offsets `0` to `max_record_size`. -/
def process (memory : Nat → Memory settings) : Run :=
  processFrom file memory (settings.maxRecordSize.toNat + 1) 0

/-! ## Records of a file -/

/-- Where the record at an offset ends. -/
def recordAfter (settings : Settings) (file : List UInt8) (start : Nat) : Option Nat :=
  match reading settings.version settings.maxRecordSize.toNat (file.drop start) with
  | .record rest => some (file.length - rest.length)
  | _ => none

/-- The record that starts at `record` is in the row of records behind `start`. -/
def Reaches (settings : Settings) (file : List UInt8) (start record : Nat) : Prop :=
  ∃ count, ahead (recordAfter settings file) count start = some record

/-- The row of records from `start` is short and ends at an invalid name. -/
def StartsOver (settings : Settings) (file : List UInt8) (start : Nat) : Prop :=
  ∃ count last, ahead (recordAfter settings file) count start = some last ∧
    reading settings.version settings.maxRecordSize.toNat (file.drop last) = .invalid ∧
    (settings.minValidRecs = 0 ∨ count < settings.minValidRecs.toNat)

/-- The search gets to `offset`. -/
def Tried (settings : Settings) (file : List UInt8) (offset : Nat) : Prop :=
  offset ≤ settings.maxRecordSize.toNat ∧ ∀ earlier < offset, StartsOver settings file earlier

variable {file}

theorem recordAfter_eq {start : Nat} {rest : List UInt8}
    (read : reading settings.version settings.maxRecordSize.toNat (file.drop start) =
      .record rest) : recordAfter settings file start = some (file.length - rest.length) := by
  simp only [recordAfter, read]

/-- Records end behind their start and inside the file. -/
theorem recordAfter_spec {start stop : Nat} (found : recordAfter settings file start = some stop) :
    reading settings.version settings.maxRecordSize.toNat (file.drop start) =
      .record (file.drop stop) ∧ start < stop ∧ stop ≤ file.length := by
  rw [recordAfter] at found
  split at found
  · rename_i rest read
    cases found
    obtain ⟨suffix, shorter⟩ := reading_record read
    have whole : rest = file.drop (file.length - rest.length) :=
      List.suffix_iff_eq_drop.mp (suffix.trans (List.drop_suffix _ _))
    rw [List.length_drop] at shorter
    exact ⟨by rw [← whole]; exact read, by omega, Nat.sub_le _ _⟩
  · cases found

theorem recordAfter_decreasing {start next : Nat}
    (found : recordAfter settings file start = some next) :
    file.length - next < file.length - start := by
  obtain ⟨-, forward, inside⟩ := recordAfter_spec found
  omega

theorem recordAfter_small (small : settings.maxRecordSize.toNat < Record.byteSize) (start : Nat) :
    recordAfter settings file start = none := by
  cases found : recordAfter settings file start with
  | none => rfl
  | some stop =>
      obtain ⟨fits, whole⟩ := reading_eq_record (recordAfter_spec found).1
      obtain ⟨⟨argtype, body⟩, parts, -⟩ := Option.bind_eq_some_iff.mp whole
      have room := fits argtype body parts
      omega

/-! ## One attempt -/

/-- How the loop stops where the file holds no record. -/
def Stops : Reading → Halt → Prop
  | .ended, .returned parser => parser.failed = false
  | .invalid, .returned parser => parser.failed = true ∧ parser.blamesFormat = true
  | .cut, .returned parser => parser.Cut
  | .overrun, .overrun => True
  | _, _ => False

/-- The bytes of the record at an offset. -/
def span (settings : Settings) (file : List UInt8) (start : Nat) : Nat × Nat :=
  (start, (recordAfter settings file start).getD start)

theorem span_injective : Function.Injective (span settings file) :=
  fun _ _ same => congrArg Prod.fst same

theorem count_eq {parser : Parser} {start : Nat} (input : parser.input = file.drop start)
    (inside : start ≤ file.length) : count file parser = start := by
  rw [count, input, List.length_drop]
  omega

theorem fetch_stops (fuel : Nat) {parser : Parser} {start : Nat}
    (least : Record.byteSize ≤ settings.maxRecordSize.toNat)
    (ready : parser.Ready settings.maxRecordSize.toNat) (clean : parser.Clean)
    (input : parser.input = file.drop start) (none_here : recordAfter settings file start = none) :
    (fetch file settings.version (fuel + 1) parser).1 = [] ∧
      Stops (reading settings.version settings.maxRecordSize.toNat (file.drop start))
        (fetch file settings.version (fuel + 1) parser).2.2 := by
  have follows := Parser.next_follows settings.version ready least settings.maxRecordSize.toNat_lt
    clean
  rw [input] at follows
  cases read : reading settings.version settings.maxRecordSize.toNat (file.drop start) with
  | record rest =>
      rw [recordAfter_eq read] at none_here
      cases none_here
  | ended =>
      rw [read] at follows
      obtain ⟨after, done, ok⟩ := follows
      simp only [fetch, done]
      exact ⟨trivial, ok⟩
  | invalid =>
      rw [read] at follows
      obtain ⟨after, done, failed, blames⟩ := follows
      simp only [fetch, done]
      exact ⟨trivial, failed, blames⟩
  | cut =>
      rw [read] at follows
      obtain ⟨after, done, cut⟩ := follows
      simp only [fetch, done]
      exact ⟨trivial, cut⟩
  | overrun =>
      rw [read] at follows
      have done : parser.next settings.version = none := follows
      simp only [fetch, done]
      exact ⟨trivial, trivial⟩

/-- The loop emits the row of records behind its start, and stops as the bytes
behind them say. -/
theorem fetch_spec {parser : Parser} {start fuel : Nat}
    (least : Record.byteSize ≤ settings.maxRecordSize.toNat)
    (ready : parser.Ready settings.maxRecordSize.toNat) (clean : parser.Clean)
    (input : parser.input = file.drop start) (enough : file.length - start < fuel) :
    (fetch file settings.version fuel parser).1.map Emission.range =
        (trail (recordAfter settings file) fuel start).map (span settings file) ∧
      ∃ last, ahead (recordAfter settings file)
          (fetch file settings.version fuel parser).1.length start = some last ∧
        recordAfter settings file last = none ∧
        Stops (reading settings.version settings.maxRecordSize.toNat (file.drop last))
          (fetch file settings.version fuel parser).2.2 := by
  induction fuel generalizing parser start with
  | zero => exact absurd enough (Nat.not_lt_zero _)
  | succ fuel ih =>
      cases found : recordAfter settings file start with
      | none =>
          obtain ⟨nothing, stops⟩ := fetch_stops fuel least ready clean input found
          rw [nothing, trail, found]
          exact ⟨rfl, start, rfl, found, stops⟩
      | some stop =>
          obtain ⟨read, forward, inside⟩ := recordAfter_spec found
          have follows := Parser.next_follows settings.version ready least
            settings.maxRecordSize.toNat_lt clean
          rw [input, read] at follows
          obtain ⟨data, after, done, afterClean, afterReady, afterInput⟩ := follows
          obtain ⟨ranges, last, reached, ended, stops⟩ := ih afterReady afterClean afterInput
            (by omega)
          have unfolded : fetch file settings.version (fuel + 1) parser =
              (⟨start, stop, data⟩ :: (fetch file settings.version fuel after).1,
                (fetch file settings.version fuel after).2) := by
            simp only [fetch, done, count_eq input (by omega), count_eq afterInput inside]
          rw [unfolded]
          refine ⟨?_, last, ?_, ended, stops⟩
          · simp only [trail, found, List.map_cons, ranges]
            rw [span, found]
            rfl
          · rw [List.length_cons, ahead, found]
            exact reached

/-- The starts of the records behind an offset. -/
def row (settings : Settings) (file : List UInt8) (start : Nat) : List Nat :=
  trail (recordAfter settings file) (file.length + 1) start

theorem mem_row {start record : Nat} : record ∈ row settings file start ↔
    Reaches settings file start record ∧ (recordAfter settings file record).isSome = true :=
  mem_trail recordAfter_decreasing (by omega)

theorem row_nodup (start : Nat) : (row settings file start).Nodup :=
  trail_nodup recordAfter_decreasing (by omega)

theorem Memory.ready (memory : Memory settings) (input : List UInt8) :
    (memory.parser input).Ready settings.maxRecordSize.toNat :=
  ⟨memory.property.argval, memory.property.ringName, memory.property.areaName,
    memory.property.sectionName⟩

theorem Memory.clean (memory : Memory settings) (input : List UInt8) :
    (memory.parser input).Clean :=
  ⟨rfl, rfl⟩

/-- Only one offset ends a row, so the row decides whether to start over. -/
theorem startsOver_iff {offset count last : Nat}
    (reached : ahead (recordAfter settings file) count offset = some last)
    (ended : recordAfter settings file last = none) :
    StartsOver settings file offset ↔
      reading settings.version settings.maxRecordSize.toNat (file.drop last) = .invalid ∧
        ¬ (settings.minValidRecs ≠ 0 ∧ settings.minValidRecs.toNat ≤ count) := by
  rw [not_and_or, not_not, Nat.not_le]
  constructor
  · intro ⟨count', last', reached', invalid, few⟩
    have ended' : recordAfter settings file last' = none := by simp only [recordAfter, invalid]
    obtain ⟨rfl, rfl⟩ := ahead_unique reached ended reached' ended'
    exact ⟨invalid, few⟩
  · intro ⟨invalid, few⟩
    exact ⟨count, last, reached, invalid, few⟩

/-- An attempt emits the row of records behind its offset, and is followed by
another one exactly if the row asks for it. -/
theorem reprocess_spec (least : Record.byteSize ≤ settings.maxRecordSize.toNat)
    (memory : Memory settings) (offset : Nat) :
    (reprocess file memory offset).emitted.map Emission.range =
        (row settings file offset).map (span settings file) ∧
      ((reprocess file memory offset).verdict = .retry ↔ StartsOver settings file offset) := by
  obtain ⟨ranges, last, reached, ended, stops⟩ := fetch_spec least
    (memory.ready (file.drop offset)) (memory.clean _) rfl (Nat.lt_succ_of_le (Nat.sub_le _ offset))
  rw [reprocess, if_neg (Nat.not_lt.mpr least)]
  rcases fetched : fetch file settings.version (file.length + 1) (memory.parser (file.drop offset))
    with ⟨emitted, stop, halt⟩
  rw [fetched] at ranges reached stops
  rw [startsOver_iff reached ended]
  cases read : reading settings.version settings.maxRecordSize.toNat (file.drop last) with
  | record rest =>
      rw [recordAfter_eq read] at ended
      cases ended
  | ended =>
      rw [read] at stops
      cases halt with
      | returned parser =>
          have ok : parser.failed = false := stops
          simp only [ok]
          exact ⟨ranges, by simp⟩
      | overrun | exhausted => exact stops.elim
  | invalid =>
      rw [read] at stops
      cases halt with
      | returned parser =>
          obtain ⟨failed, blames⟩ := stops
          simp only [failed, blames, if_true, true_and]
          refine ⟨ranges, ?_⟩
          split
          · rename_i enough
            exact iff_of_false nofun fun few => few enough
          · rename_i few
            exact iff_of_true rfl few
      | overrun | exhausted => exact stops.elim
  | cut =>
      rw [read] at stops
      cases halt with
      | returned parser =>
          obtain ⟨failed, blames⟩ := stops
          simp only [failed, blames, if_true]
          exact ⟨ranges, by simp⟩
      | overrun | exhausted => exact stops.elim
  | overrun =>
      rw [read] at stops
      cases halt with
      | overrun => exact ⟨ranges, by simp⟩
      | returned parser => exact stops.elim
      | exhausted => exact stops.elim

/-! ## The whole run -/

/-- The run asks for another attempt behind `offset`. -/
def again (file : List UInt8) (memory : Nat → Memory settings) (offset : Nat) : Bool :=
  (reprocess file (memory offset) offset).verdict = .retry

/-- A run emits what its attempts emit, one after the other. -/
theorem processFrom_emitted (memory : Nat → Memory settings) (left offset : Nat) :
    (processFrom file memory left offset).emitted = (tries (again file memory) left offset).flatMap
      fun tried => (reprocess file (memory tried) tried).emitted := by
  induction left generalizing offset with
  | zero => rfl
  | succ left ih =>
      rw [tries, List.flatMap_cons, processFrom, again]
      cases verdict : (reprocess file (memory offset) offset).verdict with
      | done => simp
      | crashed => simp
      | retry => simp [ih]

theorem mem_tries_iff_tried (least : Record.byteSize ≤ settings.maxRecordSize.toNat)
    (memory : Nat → Memory settings) {offset : Nat} :
    offset ∈ tries (again file memory) (settings.maxRecordSize.toNat + 1) 0 ↔
      Tried settings file offset := by
  rw [mem_tries, Tried, Nat.zero_add, Nat.lt_succ_iff]
  have restarts : ∀ earlier, again file memory earlier = true ↔
      StartsOver settings file earlier := fun earlier => by
    rw [again, decide_eq_true_iff]
    exact (reprocess_spec least (memory earlier) earlier).2
  constructor
  · intro ⟨_, bound, all⟩
    exact ⟨bound, fun earlier before => (restarts earlier).mp (all earlier (Nat.zero_le _) before)⟩
  · intro ⟨bound, all⟩
    exact ⟨Nat.zero_le _, bound, fun earlier _ before => (restarts earlier).mpr (all earlier before)⟩

theorem process_small (small : settings.maxRecordSize.toNat < Record.byteSize)
    (memory : Nat → Memory settings) :
    (process file memory).emitted = [] ∧ (process file memory).ending = .crashed := by
  simp [process, processFrom, reprocess, small]

theorem process_ranges (least : Record.byteSize ≤ settings.maxRecordSize.toNat)
    (memory : Nat → Memory settings) :
    (process file memory).emitted.map Emission.range =
      (tries (again file memory) (settings.maxRecordSize.toNat + 1) 0).flatMap fun tried =>
        (row settings file tried).map (span settings file) := by
  rw [process, processFrom_emitted, List.map_flatMap]
  congr 1
  funext tried
  exact (reprocess_spec least (memory tried) tried).1

/-- A record that two attempts get to is emitted by both. -/
theorem emitted_twice (memory : Nat → Memory settings) {first second record stop : Nat}
    (before : first < second) (tried : Tried settings file second)
    (fromFirst : Reaches settings file first record)
    (fromSecond : Reaches settings file second record)
    (found : recordAfter settings file record = some stop) :
    ¬ ((process file memory).emitted.map Emission.range).Nodup := by
  have least : Record.byteSize ≤ settings.maxRecordSize.toNat := by
    by_contra small
    rw [recordAfter_small (Nat.lt_of_not_le small)] at found
    cases found
  have defined : (recordAfter settings file record).isSome = true := by
    rw [found]
    rfl
  rw [process_ranges least,
    nodup_tries_flatMap (fun start => (row_nodup start).map span_injective)]
  intro apart
  exact apart first second (Nat.zero_le _) before ((mem_tries_iff_tried least memory).mpr tried)
    (List.mem_map_of_mem (mem_row.mpr ⟨fromFirst, defined⟩))
    (List.mem_map_of_mem (mem_row.mpr ⟨fromSecond, defined⟩))

/-- No range is emitted twice exactly when the rows of the offsets that are
tried have no record in common. -/
theorem emitted_once_iff (file : List UInt8) (memory : Nat → Memory settings) :
    ((process file memory).emitted.map Emission.range).Nodup ↔
      ∀ first second, first < second → Tried settings file second →
        ∀ record, Reaches settings file first record → Reaches settings file second record →
          recordAfter settings file record = none := by
  constructor
  · intro once first second before tried record fromFirst fromSecond
    cases found : recordAfter settings file record with
    | none => rfl
    | some stop => exact absurd once (emitted_twice memory before tried fromFirst fromSecond found)
  · intro apart
    by_cases small : settings.maxRecordSize.toNat < Record.byteSize
    · rw [(process_small small memory).1]
      exact List.nodup_nil
    have least := Nat.le_of_not_lt small
    rw [process_ranges least,
      nodup_tries_flatMap (fun start => (row_nodup start).map span_injective)]
    intro first second _ before member range inFirst inSecond
    obtain ⟨record, shared, rfl⟩ := List.mem_map.mp inFirst
    rw [List.mem_map_of_injective span_injective] at inSecond
    obtain ⟨fromFirst, defined⟩ := mem_row.mp shared
    have tried := (mem_tries_iff_tried least memory).mp member
    rw [apart first second before tried record fromFirst (mem_row.mp inSecond).1] at defined
    cases defined

/-- The settings without options. -/
def defaults : Settings :=
  { version := .v1_1, maxRecordSize := 10 * 1024 * 1024, minValidRecs := 4 }

def blankMemory (settings : Settings) : Memory settings :=
  ⟨Parser.blankParser settings.maxRecordSize.toNat [], Parser.blankParser_ready _ _⟩

/-- Two records, and zeros where the third one should be. -/
def corruptThird : List UInt8 :=
  pack (fun _ => []) greeting ++ pack (fun _ => []) greeting ++ List.replicate 117 0

theorem second_record_emitted_twice : ¬ ∀ (settings : Settings) (file : List UInt8)
    (memory : Nat → Memory settings),
    ((process file memory).emitted.map Emission.range).Nodup := by
  intro once
  -- The first attempt reads both records; the names it meets at the offsets up
  -- to the second record are all invalid.
  have misaligned : ∀ offset < 43, offset ≠ 0 → invalidName (corruptThird.drop offset) = true := by
    decide +kernel
  have tried : Tried defaults corruptThird 43 := by
    refine ⟨by decide, fun earlier before => ?_⟩
    by_cases start : earlier = 0
    · subst earlier
      exact ⟨2, 86, by decide +kernel, by decide +kernel, .inr (by decide)⟩
    · exact ⟨0, earlier, rfl, reading_eq_invalid_iff.mpr (misaligned earlier before start),
        .inr (by decide)⟩
  have twice := emitted_twice (fun _ => blankMemory defaults) (by decide : 0 < 43) tried
    ⟨1, by decide +kernel⟩ ⟨0, rfl⟩
    (by decide +kernel : recordAfter defaults corruptThird 43 = some 86)
  exact twice (once defaults corruptThird fun _ => blankMemory defaults)

end Cook

end Hogl.Raw
