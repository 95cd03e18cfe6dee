import Hogl.Engine.Acknowledged
import Hogl.Raw.RoundTrip

namespace Hogl

open Hogl.Data

/-! # What the output is given

`flush_record` passes the records of the rings to the output, and
`inject_record` the notes of the engine itself, as records of its internal
area.
-/

/-! ## Arguments kept in the record itself -/

namespace Record

variable {record : Record} {args : List Arg}

/-- Values need no room behind the slots. -/
theorem StoredFrom.of_values {index room place room' place' : Nat}
    (values : ∀ arg ∈ args, ∃ type val, arg = .value type val)
    (stored : record.StoredFrom room index place args) :
    record.StoredFrom room' index place' args := by
  induction args generalizing index place place' with
  | nil => trivial
  | cons arg args ih =>
      obtain ⟨type, val, rfl⟩ := values arg List.mem_cons_self
      exact ⟨stored.1, ih (fun other member => values other (List.mem_cons_of_mem _ member)) stored.2⟩

theorem setArgs_values (record : Record) (tailroom : UInt32) (few : args.length ≤ nargs)
    (values : ∀ arg ∈ args, ∃ type val, arg = .value type val)
    (memory : argvalSize ≤ record.argval.length) :
    ∃ after, record.setArgs tailroom args = some after ∧
      after = { record with argtype := after.argtype, argval := after.argval } ∧
      after.Holds args record.argval.length := by
  have used := Arg.slotsUsed_le args
  simp only [nargs, argvalSize] at few memory
  obtain ⟨after, stores, header, length, stored, -⟩ := @setArgsFrom_spec
    { record with argtype := 0 } 0 tailroom (UInt32.ofNat (args.countP (· ≠ .none) * 8)) args 0
    (fun arg member => .inr (values arg member)) (by change _ ≤ record.argval.length; omega)
  refine ⟨after, ?_, by rw [header], StoredFrom.holds length (by omega) ?_ (stored.of_values values)⟩
  · simp only [setArgs, stores, Option.bind_eq_bind, Option.bind_some]
    rfl
  · intro index inside
    have word : after.argtype = Arg.typeWord args 0 0 := by rw [header]
    have code := @Arg.nibble_typeWord args 0 index 0 (by rw [Nat.zero_add]; exact inside)
      fun other _ => nibble_zero other
    rw [Nat.zero_add] at code
    rw [getArgType, word, code, Arg.ofNibble_type_code]

end Record

namespace Raw

variable {strings : UInt64 → List UInt8} {record : Record}

/-- The bytes that values and global strings ask for. -/
theorem needFrom_le {bound : Nat}
    (simple : ∀ index < Record.nargs, (record.getArgType index).isSimple = true)
    (unset : ∀ index < Record.nargs, bound ≤ index → record.getArgType index = .none)
    {count index : Nat} (range : index + count ≤ Record.nargs) :
    needFrom strings record count index ≤ (bound - index) * (maxString + 1) := by
  induction count generalizing index with
  | zero => exact Nat.zero_le _
  | succ count ih =>
      have inside : index < Record.nargs := by omega
      rw [needFrom]
      split
      · exact Nat.zero_le _
      · rename_i set
        have below : index < bound := Nat.lt_of_not_le fun past => set (unset index inside past)
        have few : argNeed strings record index ≤ maxString + 1 := by
          have kind := simple index inside
          rw [argNeed]
          split
          · rename_i type
            rw [type] at kind
            cases kind
          · omega
          · rename_i type
            rw [type] at kind
            cases kind
          · rename_i type
            rw [type] at kind
            cases kind
          · exact Nat.zero_le _
        have rest := @ih (index + 1) (by omega)
        have split : bound - index = bound - (index + 1) + 1 := by omega
        rw [split, Nat.succ_mul]
        omega

end Raw

namespace Polling

open Hogl.Ring Hogl.Raw

/-! ## Injected records -/

/-- The area of `add_internal_area`. -/
def internalArea : Area where
  name := ascii "HOGL"
  sections := ["INFO", "WARN", "ERROR", "DROPMARK", "TSOFULLMARK", "ENGINE:DEBUG", "AREA:DEBUG",
    "RING:DEBUG", "TLS:DEBUG"].map ascii

/-- The numbers of `internal::section_ids`. -/
def InternalSection.code : InternalSection → BitVec 12
  | .info => 0
  | .dropmark => 3
  | .tsofullmark => 4

theorem internalArea_printable : PrintableName internalArea.name :=
  ⟨by decide, by decide, by decide⟩

theorem InternalSection.printable (sect : InternalSection) :
    PrintableName (internalArea.sectionName sect.code.toNat) := by
  cases sect <;> exact ⟨by decide, by decide, by decide⟩

/-- The calls of `inject_record`, with the names of the rings. -/
inductive Injection (names : RingId → List UInt8) :
    List UInt8 → InternalSection → String → List InjectedArg → Prop where
  | switched (ring : RingId) (old new : UInt64) :
      Injection names (names ring) .info "switching timesource from %s to %s"
        [.timesourceName old, .timesourceName new]
  | dropped (ring : RingId) (count : UInt64) :
      Injection names (names ring) .dropmark "dropped %llu record(s)" [.number count]
  | full : Injection names (ascii "ENGINE") .tsofullmark "following records may be out of order" []

/-- The strings of the process that the engine passes on by address, and what
happens to stand where the next record of `inject_record` is made. -/
structure Literals where
  strings : UInt64 → List UInt8
  /-- Where a literal stands. -/
  literal : String → UInt64
  /-- `timesource::name()`. -/
  timesourceName : UInt64 → UInt64
  stack : List UInt8
  literalSet : ∀ text, literal text ≠ 0
  timesourceNamed : ∀ timesource, timesourceName timesource ≠ 0
  stackSize : stack.length = Record.argvalSize

namespace Literals

variable (literals : Literals)

def arg : InjectedArg → Arg
  | .number value => .value .uint64 value
  | .timesourceName timesource => .value .gstr (literals.timesourceName timesource)

/-- The arguments of `set_args` in `inject_record`; one that was left out is 0. -/
def injectedArgs (format : String) (args : List InjectedArg) : List Arg :=
  .value .gstr (literals.literal format) ::
    (args ++ List.replicate (2 - args.length) (InjectedArg.number 0)).map literals.arg

/-- The record that `inject_record` makes. -/
def fake (timestamp seqnum : UInt64) (sect : InternalSection) (format : String)
    (args : List InjectedArg) : Option Record :=
  Record.setArgs {
    area := some internalArea
    timestamp
    seqnum := BitVec.ofNat 52 seqnum.toNat
    sect := sect.code
    argtype := 0
    argval := literals.stack } 0 (literals.injectedArgs format args)

/-- What `output::process` gets with an event. -/
def processed (names : RingId → List UInt8) : Event → Option FormatData
  | .output ring record => some { ringName := names ring, record }
  | .injected ringName timestamp seqnum sect format args =>
      (literals.fake timestamp seqnum sect format args).map fun record => { ringName, record }
  | _ => none

variable {literals} {names : RingId → List UInt8} {sect : InternalSection} {format : String}
  {args : List InjectedArg} {ringName : List UInt8}

theorem injectedArgs_length (few : args.length ≤ 2) :
    (literals.injectedArgs format args).length = 3 := by
  simp only [injectedArgs, List.length_cons, List.length_map, List.length_append,
    List.length_replicate]
  omega

theorem injectedArgs_values : ∀ arg ∈ literals.injectedArgs format args,
    ∃ type val, arg = .value type val ∧ (type = .gstr → val ≠ 0) := by
  intro arg member
  rcases List.mem_cons.mp member with rfl | member
  · exact ⟨_, _, rfl, fun _ => literals.literalSet format⟩
  · obtain ⟨injected, -, rfl⟩ := List.mem_map.mp member
    cases injected with
    | number value => exact ⟨_, _, rfl, ValueType.noConfusion⟩
    | timesourceName timesource => exact ⟨_, _, rfl, fun _ => literals.timesourceNamed timesource⟩

/-- The size of the largest record that `inject_record` can make, once it is read back. -/
def injectedSize : Nat := Record.byteSize + 3 * (maxString + 1)

/-- Every injected record may be packed. -/
theorem fake_packable {maxRecordSize : Nat} (room : injectedSize ≤ maxRecordSize)
    (injection : Injection names ringName sect format args) (printable : PrintableName ringName)
    (timestamp seqnum : UInt64) :
    ∃ record, literals.fake timestamp seqnum sect format args = some record ∧
      Packable literals.strings maxRecordSize { ringName, record } := by
  have few : args.length ≤ 2 := by cases injection <;> simp
  have length := @injectedArgs_length literals format args few
  have values := @injectedArgs_values literals format args
  obtain ⟨record, made, header, holds⟩ := @Record.setArgs_values (literals.injectedArgs format args)
    { area := some internalArea
      timestamp
      seqnum := BitVec.ofNat 52 seqnum.toNat
      sect := sect.code
      argtype := 0
      argval := literals.stack } 0 (by rw [length]; decide)
    (fun arg member => by
      obtain ⟨type, val, same, -⟩ := values arg member
      exact ⟨type, val, same⟩)
    (Nat.le_of_eq literals.stackSize.symm)
  have simple : ∀ index < Record.nargs, (record.getArgType index).isSimple = true := by
    intro index inside
    rw [holds.types index inside, List.getD_eq_getElem?_getD]
    cases found : (literals.injectedArgs format args)[index]? with
    | none => rfl
    | some arg =>
        obtain ⟨type, val, rfl, -⟩ := values arg (List.mem_of_getElem? found)
        cases type <;> rfl
  have unset : ∀ index < Record.nargs, 3 ≤ index → record.getArgType index = .none := by
    intro index inside past
    rw [holds.types index inside, List.getD_eq_default _ _ (by rw [length]; exact past)]
    rfl
  refine ⟨record, made, ⟨_, _, by rw [length]; decide, holds⟩, ?_, printable, ?_, ?_, ?_⟩
  · intro index inside isString
    rw [holds.types index inside, List.getD_eq_getElem?_getD] at isString
    cases found : (literals.injectedArgs format args)[index]? with
    | none =>
        rw [found] at isString
        cases isString
    | some arg =>
        obtain ⟨type, val, rfl, set⟩ := values arg (List.mem_of_getElem? found)
        have value := holds.values index type val found
        rw [found] at isString
        cases type with
        | gstr => exact fun null => set rfl (value.symm.trans null)
        | _ => cases isString
  · rw [header]
    exact internalArea_printable
  · rw [header]
    exact sect.printable
  · have few := @needFrom_le literals.strings record 3 simple unset Record.nargs 0
      (Nat.le_of_eq (Nat.zero_add _))
    exact (Nat.add_le_add_left few _).trans room

end Literals

/-! ## What the engine injects -/

/-- An injected record is one of those the engine makes. -/
def Event.Genuine (names : RingId → List UInt8) (event : Event) : Prop :=
  ∀ ringName timestamp seqnum sect format args,
    event = .injected ringName timestamp seqnum sect format args →
      Injection names ringName sect format args

namespace Engine

variable {engine : Engine} {names : RingId → List UInt8}

/-- What was logged in between is genuine. -/
def LogsGenuine (names : RingId → List UInt8) (before after : Engine) : Prop :=
  ∃ events, after.shared.trace = before.shared.trace ++ events ∧
    ∀ event ∈ events, event.Genuine names

theorem LogsGenuine.same {before after : Engine}
    (trace : after.shared.trace = before.shared.trace) : LogsGenuine names before after :=
  ⟨[], by rw [trace, List.append_nil], List.forall_mem_nil _⟩

theorem LogsGenuine.one {before after : Engine} {event : Event}
    (trace : after.shared.trace = before.shared.trace ++ [event]) (genuine : event.Genuine names) :
    LogsGenuine names before after :=
  ⟨[event], trace, List.forall_mem_singleton.mpr genuine⟩

theorem LogsGenuine.other {before after : Engine} {event : Event}
    (trace : after.shared.trace = before.shared.trace ++ [event])
    (other : event.isInjected = false) : LogsGenuine names before after := by
  refine .one trace ?_
  rintro ringName timestamp seqnum sect format args rfl
  cases other

theorem LogsGenuine.trans {first second third : Engine} (left : LogsGenuine names first second)
    (right : LogsGenuine names second third) : LogsGenuine names first third := by
  obtain ⟨events, trace, genuine⟩ := left
  obtain ⟨more, moreTrace, moreGenuine⟩ := right
  refine ⟨events ++ more, by rw [moreTrace, trace, List.append_assoc], ?_⟩
  intro event member
  exact (List.mem_append.mp member).elim (genuine event) (moreGenuine event)

theorem Injection.genuine {ringName : List UInt8} {sect : InternalSection} {format : String}
    {args : List InjectedArg} (injection : Injection names ringName sect format args)
    (timestamp seqnum : UInt64) :
    (Event.injected ringName timestamp seqnum sect format args).Genuine names := by
  rintro _ _ _ _ _ _ ⟨⟩
  exact injection

theorem reportDrops_genuine (named : ∀ ring, (engine.obj ring).name = names ring) (ring : RingId)
    (record : Record) (expected : UInt64) :
    LogsGenuine names engine (engine.reportDrops ring record expected) := by
  simp only [reportDrops]
  split
  · exact .same rfl
  · split
    · refine .trans (.one rfl ?_) (.other rfl rfl)
      rw [named]
      exact Injection.genuine (.dropped ring _) _ _
    · exact .other rfl rfl

theorem switchTimesource_genuine (named : ∀ ring, (engine.obj ring).name = names ring)
    (ring : RingId) (record : Record) :
    LogsGenuine names engine (engine.switchTimesource ring record) := by
  refine .one rfl ?_
  rw [named]
  exact Injection.genuine (.switched ring _ _) _ _

theorem ackSlot_genuine (ring : RingId) (slot : UInt32) :
    LogsGenuine names engine (engine.ackSlot ring slot) :=
  @LogsGenuine.other names engine _ (.acked ring slot) rfl rfl

theorem flushRecord_genuine (named : ∀ ring, (engine.obj ring).name = names ring) (ring : RingId)
    (slot : UInt32) : LogsGenuine names engine (engine.flushRecord ring slot) := by
  have entered : LogsGenuine names engine
      (engine.log (.flushed ring ((engine.obj ring).ring.slots slot))) := .other rfl rfl
  refine entered.trans ?_
  simp only [flushRecord]
  split
  · refine .trans ?_ (.trans (ackSlot_genuine ring slot) (.same rfl))
    split
    · exact @switchTimesource_genuine (engine.log _) names named ring _
    · exact .same rfl
  · exact .other rfl rfl

theorem flushEntry_genuine {te : TsoEntry} {entry : IndexEntry} {ring : RingId}
    (named : ∀ ring, (engine.obj ring).name = names ring)
    (found : engine.index[te.tag]? = some entry) (valid : entry.ring = some ring) :
    LogsGenuine names engine (engine.flushEntry te) := by
  rw [flushEntry, withRing_eq found valid]
  have reports := reportDrops_genuine named ring ((engine.obj ring).ring.slots te.slot) entry.seqnum
  refine reports.trans (.trans (.same rfl) (flushRecord_genuine (fun other => ?_) ring te.slot))
  exact ((@reportDrops_accompanied engine ring ((engine.obj ring).ring.slots te.slot)
    entry.seqnum).objs other).name.trans (named other)

theorem markTsoFull_genuine (engine : Engine) : LogsGenuine names engine engine.markTsoFull := by
  simp only [markTsoFull]
  split
  · split
    · simp only [withRing]
      split
      · split
        · exact .one rfl (Injection.genuine .full _ _)
        · exact .other rfl rfl
      · exact .other rfl rfl
    · exact .other rfl rfl
  · exact .same rfl

theorem EngineStep.genuine {std : StdSort} {next : Engine} (step : engine.EngineStep std next)
    (named : ∀ ring, (engine.obj ring).name = names ring) : LogsGenuine names engine next := by
  cases step with
  | polled | rebuilt | reset | pushed | orphaned => exact .other rfl rfl
  | unlocked | skipped | exhausted | flushing | walked | drainCommitted | passedOver | emptied
  | released | committed | untouched | settled | finished => exact .same rfl
  | @filled i tsoTs entry owner passed limit =>
      exact .trans (.other rfl rfl) (.trans (engine.pushRecord i entry
        (engine.beyond entry owner passed) (engine.entryFor i tsoTs owner passed)).markTsoFull_genuine
          (.same rfl))
  | @popped left caller te rest entry owner _ _ found valid _ =>
      exact .trans (.same rfl)
        (@flushEntry_genuine (engine.popTo left caller rest) names te entry owner named found valid)
  | @returned _ caller =>
      cases caller with
      | full => exact .other rfl rfl
      | final => exact .same rfl
  | @drained i entry owner passed =>
      exact .trans (.same rfl) (@flushRecord_genuine (engine.setEntry i { entry with
        pit := engine.beyond entry owner passed }) names named owner
          (slotOf (engine.obj owner).ring.capacity passed))
  | reaped _ found valid =>
      rw [killOrphan_eq found valid]
      exact .other rfl rfl

/-! ## Whole runs -/

/-- The rings keep their names, and the engine injects under these names. -/
structure Noted (names : RingId → List UInt8) (engine : Engine) : Prop where
  named : ∀ ring, (engine.obj ring).name = names ring
  genuine : ∀ event ∈ engine.shared.trace, event.Genuine names

theorem after_noted (std : StdSort) (capacity : UInt32) (tsoDisabled : Bool) (timesource : UInt64)
    {rings : RingId → RingObj} (fresh : ∀ ring, (rings ring).Fresh) (actions : List Action) :
    ((create capacity tsoDisabled timesource rings).after std actions).Noted
      fun ring => (rings ring).name := by
  refine @after_induction std (fun _ => True) (Noted fun ring => (rings ring).name) _
    (create_sound capacity tsoDisabled timesource fresh) (fun _ _ _ _ => trivial)
    (fun _ _ _ _ _ => trivial) ?_ ?_ ?_ actions trivial
  · exact fun _ => ⟨fun _ => rfl, List.forall_mem_nil _⟩
  · intro engine op _ _ noted
    have step := engine.shared.apply_step op
    obtain ⟨events, trace, byClient⟩ := step.trace
    refine ⟨fun ring => (step.same ring).name.trans (noted.named ring), ?_⟩
    intro event member
    rcases List.mem_append.mp (trace ▸ member) with old | new
    · exact noted.genuine event old
    · rintro _ _ _ _ _ _ rfl
      cases byClient _ new
  · intro engine next _ _ shape _ noted
    obtain ⟨events, trace, genuine⟩ := shape.genuine noted.named
    refine ⟨fun ring => (shape.objs ring).name.trans (noted.named ring), ?_⟩
    intro event member
    exact (List.mem_append.mp (trace ▸ member)).elim (noted.genuine event) (genuine event)

theorem after_capacity (std : StdSort) (capacity : UInt32) (tsoDisabled : Bool)
    (timesource : UInt64) {rings : RingId → RingObj} (fresh : ∀ ring, (rings ring).Fresh)
    (actions : List Action) (ring : RingId) :
    (((create capacity tsoDisabled timesource rings).after std actions).obj ring).ring.capacity =
      (rings ring).ring.capacity := by
  refine @after_induction std (fun _ => True)
    (fun engine => (engine.obj ring).ring.capacity = (rings ring).ring.capacity) _
    (create_sound capacity tsoDisabled timesource fresh) (fun _ _ _ _ => trivial)
    (fun _ _ _ _ _ => trivial) (fun _ => rfl) ?_ ?_ actions trivial
  · exact fun engine op _ _ same => ((engine.shared.apply_step op).same ring).capacity.trans same
  · exact fun engine next _ _ shape _ same => (shape.objs ring).capacity.trans same

/-- The output gets the records of a ring that are handed over and are not
special, in their order. -/
theorem after_outputs (std : StdSort) (capacity : UInt32) (tsoDisabled : Bool)
    (timesource : UInt64) {rings : RingId → RingObj} (fresh : ∀ ring, (rings ring).Fresh)
    (actions : List Action) (ring : RingId)
    (bounded : ∀ record ∈ ((create capacity tsoDisabled timesource rings).after std
      actions).shared.committed ring,
      record.timestamp.toNat + slotCount (rings ring).ring.capacity ≤ 2 ^ 64) :
    let engine := (create capacity tsoDisabled timesource rings).after std actions
    outputTo ring engine.shared.trace =
        (engine.shared.flushed ring).filter (fun record => !record.special) ∧
      engine.shared.flushed ring <+: engine.shared.committed ring := by
  have capacities := after_capacity std capacity tsoDisabled timesource fresh actions ring
  rw [← capacities] at bounded
  have both := @after_induction std (Clear ring) (fun engine => engine.Delivering ring ∧
    engine.Awaited ring (rings ring).ring.capacity) _
    (create_sound capacity tsoDisabled timesource fresh) ?_ ?_ ?_ ?_ ?_ actions
    (climbing_of_bounded bounded)
  · exact ⟨both.2.outputs, both.1.delivered⟩
  · exact fun engine op _ good => .of_client (engine.shared.apply_step op) good
  · exact fun engine next _ shape good => .of_step shape good
  · exact fun _ => ⟨create_delivering capacity tsoDisabled timesource fresh ring,
      create_awaited capacity tsoDisabled timesource fresh ring⟩
  · intro engine op sound _ ⟨delivering, awaited⟩
    have step := engine.shared.apply_step op
    exact ⟨delivering.view (.client sound step),
      awaited.client sound delivering step (engine.shared.apply_writer ring op)⟩
  · intro engine next sound after shape good ⟨delivering, awaited⟩
    exact ⟨delivering.step sound (Clear.of_step shape good) shape,
      awaited.step sound after delivering shape⟩

/-- What the output was given, in its order. -/
def outputs (literals : Literals) (names : RingId → List UInt8) (engine : Engine) :
    List FormatData :=
  engine.shared.trace.filterMap (literals.processed names)

/-- The output can pack all it is given, if it can pack what was posted. -/
theorem outputs_packable {literals : Literals} {maxRecordSize : Nat}
    (room : Literals.injectedSize ≤ maxRecordSize) (printable : ∀ ring, PrintableName (names ring))
    (noted : engine.Noted names)
    (posted : ∀ ring, ∀ record ∈ outputTo ring engine.shared.trace,
      Packable literals.strings maxRecordSize { ringName := names ring, record }) :
    ∀ item ∈ engine.outputs literals names, Packable literals.strings maxRecordSize item := by
  intro item member
  obtain ⟨event, logged, processed⟩ := List.mem_filterMap.mp member
  cases event with
  | output ring record =>
      cases processed
      refine posted ring record (List.mem_filterMap.mpr ⟨_, logged, if_pos rfl⟩)
  | injected ringName timestamp seqnum sect format args =>
      have injection := noted.genuine _ logged _ _ _ _ _ _ rfl
      have name : PrintableName ringName := by
        cases injection with
        | switched ring | dropped ring => exact printable ring
        | full => exact ⟨by decide, by decide, by decide⟩
      obtain ⟨record, made, packable⟩ :=
        @Literals.fake_packable literals names sect format args ringName maxRecordSize room injection
          name timestamp seqnum
      rw [Literals.processed, made] at processed
      cases processed
      exact packable
  | _ => cases processed

end Engine

end Polling

end Hogl
