import Hogl.Engine.TwoPolls
import Hogl.Engine.Writers
import Hogl.Recover.Rings

namespace Hogl.Recover

open Hogl.Data Hogl.Ring Hogl.Polling

/-! # What a crash leaves behind

The process may die between any two steps of the engine and its clients.  The
core dump then holds the rings as they stand, and the recovery tool walks each
of them from its head to its tail.  What it shows completes what the output
was given: between two polls exactly, and within a poll it starts with records
that this poll has handed over already.
-/

/-! ## The counters of a ring -/

/-- How many sequence numbers of a ring were taken. -/
def numbersTaken (ring : RingId) (trace : List Event) : Nat :=
  trace.count (.begun ring) + trace.count (.reserved ring)

/-- A number was taken and its record neither pushed nor given up. -/
def pushing : Writer → Nat
  | .filled | .reserved _ | .armed => 1
  | .idle | .awaiting _ => 0

theorem numbersTaken_append (ring : RingId) (first second : List Event) :
    numbersTaken ring (first ++ second) = numbersTaken ring first + numbersTaken ring second := by
  rw [numbersTaken, numbersTaken, numbersTaken, List.count_append, List.count_append]
  omega

theorem numbersTaken_silent {ring : RingId} {events : List Event}
    (silent : ∀ event ∈ events, event ≠ .begun ring ∧ event ≠ .reserved ring) :
    numbersTaken ring events = 0 := by
  have begun : events.count (.begun ring) = 0 :=
    List.count_eq_zero_of_not_mem fun member => (silent _ member).1 rfl
  have reserved : events.count (.reserved ring) = 0 :=
    List.count_eq_zero_of_not_mem fun member => (silent _ member).2 rfl
  rw [numbersTaken, begun, reserved]

/-- The counters in the object of a ring, as long as neither wraps. -/
structure Tallied (born : RingObj) (ring : RingId) (engine : Engine) : Prop where
  prio : (engine.obj ring).prio = born.prio
  capacity : (engine.obj ring).ring.capacity = born.ring.capacity
  seqnum : (engine.obj ring).ring.seqnum.toNat = numbersTaken ring engine.shared.trace
  dropcnt : (engine.obj ring).ring.dropcnt.toNat + pushing (engine.obj ring).writer ≤
    numbersTaken ring engine.shared.trace

namespace Tallied

variable {engine : Engine} {ring : RingId} {born : RingObj}

/-- A step that takes no number and moves no counter. -/
theorem unchanged {next : Engine} {events : List Event} (tallied : Tallied born ring engine)
    (prio : (next.obj ring).prio = (engine.obj ring).prio)
    (capacity : (next.obj ring).ring.capacity = (engine.obj ring).ring.capacity)
    (seqnum : (next.obj ring).ring.seqnum = (engine.obj ring).ring.seqnum)
    (dropcnt : (next.obj ring).ring.dropcnt = (engine.obj ring).ring.dropcnt)
    (writer : pushing (next.obj ring).writer ≤ pushing (engine.obj ring).writer)
    (trace : next.shared.trace = engine.shared.trace ++ events)
    (silent : numbersTaken ring events = 0) : Tallied born ring next := by
  have taken : numbersTaken ring next.shared.trace = numbersTaken ring engine.shared.trace := by
    rw [trace, numbersTaken_append, silent, Nat.add_zero]
  refine ⟨prio.trans tallied.prio, capacity.trans tallied.capacity, ?_, ?_⟩
  · rw [seqnum, taken]
    exact tallied.seqnum
  · rw [dropcnt, taken]
    have before := tallied.dropcnt
    omega

/-- A post, a flush or a timesource change takes the next number. -/
theorem numbered {shared : Shared} {event : Event} (tallied : Tallied born ring engine)
    (bounded : numbersTaken ring shared.trace < 2 ^ 64)
    (same : Shared.SameRing (engine.obj ring) (shared.rings ring))
    (seqnum : (shared.rings ring).ring.seqnum = (engine.obj ring).ring.seqnum + 1)
    (dropcnt : (shared.rings ring).ring.dropcnt = (engine.obj ring).ring.dropcnt)
    (idle : (engine.obj ring).writer = .idle) (writer : pushing (shared.rings ring).writer = 1)
    (trace : shared.trace = engine.shared.trace ++ [event])
    (taken : numbersTaken ring [event] = 1) : Tallied born ring { engine with shared } := by
  have more : numbersTaken ring shared.trace = numbersTaken ring engine.shared.trace + 1 := by
    rw [trace, numbersTaken_append, taken]
  have number := tallied.seqnum
  have drops := tallied.dropcnt
  rw [idle] at drops
  refine ⟨same.prio.trans tallied.prio, same.capacity.trans tallied.capacity, ?_, ?_⟩
  · change (shared.rings ring).ring.seqnum.toNat = numbersTaken ring shared.trace
    rw [seqnum, UInt64.toNat_add, Nat.mod_eq_of_lt (by simp; omega), more, number]
    rfl
  · change (shared.rings ring).ring.dropcnt.toNat + pushing (shared.rings ring).writer ≤
      numbersTaken ring shared.trace
    rw [dropcnt, writer, more]
    exact Nat.succ_le_succ drops

/-- A push into a full ring counts the record that has a number already. -/
theorem refused {shared : Shared} (tallied : Tallied born ring engine)
    (bounded : numbersTaken ring shared.trace < 2 ^ 64)
    (same : Shared.SameRing (engine.obj ring) (shared.rings ring))
    (ringEq : (shared.rings ring).ring = (engine.obj ring).ring.incDropcnt)
    (pushed : pushing (engine.obj ring).writer = 1) (writer : pushing (shared.rings ring).writer = 0)
    (trace : shared.trace = engine.shared.trace ++ [.dropped ring]) :
    Tallied born ring { engine with shared } := by
  have taken : numbersTaken ring shared.trace = numbersTaken ring engine.shared.trace := by
    rw [trace, numbersTaken_append,
      numbersTaken_silent (List.forall_mem_singleton.mpr (by simp)), Nat.add_zero]
  have drops := tallied.dropcnt
  rw [pushed] at drops
  refine ⟨same.prio.trans tallied.prio, same.capacity.trans tallied.capacity, ?_, ?_⟩
  · change (shared.rings ring).ring.seqnum.toNat = numbersTaken ring shared.trace
    rw [ringEq, taken]
    exact tallied.seqnum
  · change (shared.rings ring).ring.dropcnt.toNat + pushing (shared.rings ring).writer ≤
      numbersTaken ring shared.trace
    rw [ringEq, writer, taken, Ringbuf.incDropcnt, UInt64.toNat_add,
      Nat.mod_eq_of_lt (by simp; omega)]
    exact drops

theorem client (tallied : Tallied born ring engine) (op : Op)
    (bounded : numbersTaken ring (engine.shared.apply op).trace < 2 ^ 64) :
    Tallied born ring { engine with shared := engine.shared.apply op } := by
  have same := (engine.shared.apply_step op).same ring
  have capacity : ((engine.shared.apply op).rings ring).ring.capacity =
      (engine.obj ring).ring.capacity := same.capacity
  -- A step that logs `event` and leaves both counters alone.
  have counts {event : Event} (trace : (engine.shared.apply op).trace = engine.shared.trace ++ [event])
      (seqnum : ((engine.shared.apply op).rings ring).ring.seqnum = (engine.obj ring).ring.seqnum)
      (dropcnt : ((engine.shared.apply op).rings ring).ring.dropcnt = (engine.obj ring).ring.dropcnt)
      (writer : pushing ((engine.shared.apply op).rings ring).writer ≤
        pushing (engine.obj ring).writer)
      (silent : event ≠ .begun ring ∧ event ≠ .reserved ring) :
      Tallied born ring { engine with shared := engine.shared.apply op } :=
    tallied.unchanged same.prio capacity seqnum dropcnt writer trace
      (numbersTaken_silent (List.forall_mem_singleton.mpr silent))
  cases Shared.apply_writer ring engine.shared op with
  | same ringEq writerEq trace elsewhere =>
      refine tallied.unchanged same.prio capacity (congrArg (·.seqnum) ringEq)
        (congrArg (·.dropcnt) ringEq) (Nat.le_of_eq (congrArg pushing writerEq)) trace ?_
      apply numbersTaken_silent
      intro event member
      have other := (elsewhere event member).2
      constructor <;> rintro rfl <;> simp [Event.postingTo] at other
  | began record idle ringEq writerEq trace =>
      exact tallied.numbered bounded same (congrArg (·.seqnum) ringEq) (congrArg (·.dropcnt) ringEq)
        idle (congrArg pushing writerEq) trace (by simp [numbersTaken])
  | reserved idle ringEq writerEq trace =>
      exact tallied.numbered bounded same (congrArg (·.seqnum) ringEq) (congrArg (·.dropcnt) ringEq)
        idle (congrArg pushing writerEq) trace (by simp [numbersTaken])
  | dropped filled ringEq writerEq trace =>
      exact tallied.refused bounded same ringEq (congrArg pushing filled)
        (congrArg pushing writerEq) trace
  | refused armed full ringEq writerEq trace =>
      exact tallied.refused bounded same ringEq (congrArg pushing armed)
        (congrArg pushing writerEq) trace
  | finished _ _ ringEq writerEq trace | published _ _ ringEq writerEq trace =>
      exact counts trace (congrArg (·.seqnum) ringEq) (congrArg (·.dropcnt) ringEq)
        (by rw [writerEq]; exact Nat.zero_le _) (by simp)
  | gaveUp _ ringEq writerEq trace | observed _ _ ringEq writerEq trace =>
      exact counts trace (congrArg (·.seqnum) ringEq) (congrArg (·.dropcnt) ringEq)
        (by rw [writerEq]; exact Nat.zero_le _) (by simp)
  | left _ kind ringEq writerEq trace =>
      refine counts trace (congrArg (·.seqnum) ringEq) (congrArg (·.dropcnt) ringEq)
        (by rw [writerEq]; exact Nat.zero_le _) ?_
      rcases kind with rfl | rfl <;> simp
  | armed waiting record type arg1 arg2 room ringEq writerEq trace stamp =>
      refine tallied.unchanged same.prio capacity (congrArg (·.seqnum) ringEq)
        (congrArg (·.dropcnt) ringEq) ?_ (trace.trans (List.append_nil _).symm) rfl
      change pushing ((engine.shared.apply op).rings ring).writer ≤
        pushing (engine.shared.rings ring).writer
      rw [writerEq, waiting]
      exact Nat.le_refl 1

theorem step {std : StdSort} {next : Engine} (tallied : Tallied born ring engine)
    (shape : engine.EngineStep std next) : Tallied born ring next := by
  have same := shape.objs ring
  obtain ⟨events, trace, byEngine⟩ := shape.trace
  refine tallied.unchanged same.prio same.capacity same.seqnum same.dropcnt
    (Nat.le_of_eq (congrArg pushing same.writer)) trace (numbersTaken_silent fun event member => ?_)
  have engineEvent := byEngine event member
  constructor <;> rintro rfl <;> cases engineEvent

end Tallied

/-- The counters of every run in which no counter wraps. -/
theorem after_tallied (std : StdSort) (capacity : UInt32) (tsoDisabled : Bool)
    (timesource : UInt64) {rings : RingId → RingObj} (fresh : ∀ ring, (rings ring).Fresh)
    (actions : List Action) (ring : RingId)
    (bounded : numbersTaken ring
      ((Engine.create capacity tsoDisabled timesource rings).after std actions).shared.trace <
        2 ^ 64) :
    Tallied (rings ring) ring
      ((Engine.create capacity tsoDisabled timesource rings).after std actions) := by
  refine @Engine.after_induction std (fun engine => numbersTaken ring engine.shared.trace < 2 ^ 64)
    (Tallied (rings ring) ring) _ (Engine.create_sound capacity tsoDisabled timesource fresh)
    ?_ ?_ ?_ ?_ ?_ actions bounded
  · intro engine op _ good
    obtain ⟨events, trace, -⟩ := (engine.shared.apply_step op).trace
    change numbersTaken ring (engine.shared.apply op).trace < 2 ^ 64 at good
    rw [trace, numbersTaken_append] at good
    omega
  · intro engine next _ shape good
    obtain ⟨events, trace, -⟩ := shape.trace
    rw [trace, numbersTaken_append] at good
    omega
  · obtain ⟨mask, slots, -, made⟩ := (fresh ring).made
    have idle := (fresh ring).writer
    refine fun _ => ⟨rfl, rfl, ?_, ?_⟩
    · change (rings ring).ring.seqnum.toNat = 0
      rw [made]
      rfl
    · change (rings ring).ring.dropcnt.toNat + pushing (rings ring).writer ≤ 0
      rw [made, idle]
      exact Nat.le_refl 0
  · exact fun engine op _ good tallied => tallied.client op good
  · exact fun _ _ _ _ shape _ tallied => tallied.step shape

/-! ## Records in flight -/

section Flight

variable {engine next : Engine} {ring : RingId}

theorem EngineStep.unpolled {std : StdSort} (step : engine.EngineStep std next)
    (busy : engine.pc ≠ .idle) :
    ∃ events, next.shared.trace = engine.shared.trace ++ events ∧ .polled ∉ events := by
  cases step with
  | polled place => exact absurd place busy
  | rebuilt | reset | pushed | orphaned => exact ⟨_, rfl, by simp⟩
  | unlocked | skipped | exhausted | flushing | walked | drainCommitted | passedOver | emptied
  | released | committed | untouched | settled | finished =>
      exact ⟨[], (List.append_nil _).symm, List.not_mem_nil⟩
  | @filled i tsoTs entry owner passed limit =>
      obtain ⟨events, trace, -, unpolled⟩ := Engine.markTsoFull_aside
        (engine.pushRecord i entry (engine.beyond entry owner passed)
          (engine.entryFor i tsoTs owner passed))
      refine ⟨.tsoPush engine.tso.tail :: events, trace.trans ?_, by simpa using unpolled⟩
      change engine.shared.trace ++ [_] ++ events = _
      rw [List.append_assoc, List.singleton_append]
  | @popped left caller te rest entry owner _ _ found valid _ =>
      exact (@Engine.flushEntry_handed (engine.popTo left caller rest) te entry owner found
        valid).unpolled
  | @returned _ caller =>
      cases caller with
      | full => exact ⟨_, rfl, by simp⟩
      | final => exact ⟨[], (List.append_nil _).symm, List.not_mem_nil⟩
  | @drained i entry owner passed =>
      exact (Engine.flushRecord_handed (engine.setEntry i { entry with
        pit := engine.beyond entry owner passed }) owner
          (slotOf (engine.obj owner).ring.capacity passed)).unpolled
  | reaped _ found valid =>
      rw [Engine.killOrphan_eq found valid]
      exact ⟨_, rfl, by simp⟩

theorem EngineStep.of_idle {std : StdSort} (step : engine.EngineStep std next)
    (idle : engine.pc = .idle) : next = engine.processRings := by
  cases step with
  | polled => rfl
  | passedOver place =>
      rw [idle] at place
      exact place.elim
  | _ => simp_all

/-- Records that were handed over and still stand in the ring were handed over
by the running poll. -/
def Lingering (ring : RingId) (engine : Engine) : Prop :=
  ∃ earlier events, engine.shared.trace = earlier ++ events ∧ .polled ∉ events ∧
    engine.handed ring ≤ engine.shared.popped ring + (flushedTo ring events).length

theorem Lingering.client {shared : Shared} (lingering : Lingering ring engine)
    (sound : engine.Sound) (step : Shared.ClientStep engine.shared shared) :
    Lingering ring { engine with shared } := by
  obtain ⟨earlier, events, split, unpolled, few⟩ := lingering
  obtain ⟨more, trace, byClient⟩ := step.trace
  refine ⟨earlier, events ++ more, ?_, ?_, ?_⟩
  · rw [← List.append_assoc, ← split]
    exact trace
  · intro member
    rcases List.mem_append.mp member with old | new
    · exact unpolled old
    · cases byClient _ new
  · have handed : Engine.handed { engine with shared } ring = engine.handed ring :=
      congrArg List.length (step.flushed ring)
    rw [handed, step.popped (sound.tracked.spanned ring), flushedTo_append,
      flushedTo_byClient byClient, List.append_nil]
    exact few

theorem Lingering.step {std : StdSort} (lingering : Lingering ring engine)
    (delivering : engine.Delivering ring) (sound : engine.Sound)
    (shape : engine.EngineStep std next) : Lingering ring next := by
  have later := (shape.ring_kept sound.tracked ring).popped
  by_cases idle : engine.pc = .idle
  · have rested := delivering.popped_idle sound idle
    refine ⟨next.shared.trace, [], (List.append_nil _).symm, List.not_mem_nil, ?_⟩
    obtain rfl := EngineStep.of_idle shape idle
    have same : engine.processRings.handed ring = engine.handed ring :=
      congrArg List.length (Shared.flushed_log ring (by simp))
    rw [same]
    exact Nat.le_trans (rested ▸ later) (Nat.le_add_right _ _)
  · obtain ⟨earlier, events, split, unpolled, few⟩ := lingering
    obtain ⟨more, trace, still⟩ := EngineStep.unpolled shape idle
    refine ⟨earlier, events ++ more, ?_, ?_, ?_⟩
    · rw [← List.append_assoc, ← split]
      exact trace
    · exact fun member => (List.mem_append.mp member).elim unpolled still
    · have handed : next.handed ring = engine.handed ring + (flushedTo ring more).length := by
        rw [Engine.handed, Shared.flushed, trace, flushedTo_append, List.length_append]
        rfl
      rw [handed, flushedTo_append, List.length_append]
      omega

theorem after_lingering (std : StdSort) (capacity : UInt32) (tsoDisabled : Bool)
    (timesource : UInt64) {rings : RingId → RingObj} (fresh : ∀ ring, (rings ring).Fresh)
    (actions : List Action) (clear : Engine.Clear ring
      ((Engine.create capacity tsoDisabled timesource rings).after std actions)) :
    ((Engine.create capacity tsoDisabled timesource rings).after std actions).Delivering ring ∧
      Lingering ring ((Engine.create capacity tsoDisabled timesource rings).after std actions) := by
  refine @Engine.after_induction std (Engine.Clear ring)
    (fun engine => engine.Delivering ring ∧ Lingering ring engine) _
    (Engine.create_sound capacity tsoDisabled timesource fresh) ?_ ?_ ?_ ?_ ?_ actions clear
  · exact fun engine op _ good => .of_client (engine.shared.apply_step op) good
  · exact fun engine next _ shape good => .of_step shape good
  · exact fun _ => ⟨Engine.create_delivering capacity tsoDisabled timesource fresh ring,
      [], [], rfl, List.not_mem_nil, Nat.zero_le _⟩
  · intro engine op sound _ ⟨delivering, lingering⟩
    have step := engine.shared.apply_step op
    exact ⟨delivering.view (.client sound step), lingering.client sound step⟩
  · intro engine next sound _ shape good ⟨delivering, lingering⟩
    exact ⟨delivering.step sound (Engine.Clear.of_step shape good) shape,
      lingering.step delivering sound shape⟩

end Flight

/-! ## The ring in the core dump -/

/-- The validator takes every ring whose counters, indices and sizes are in
order and whose pointers lead into the dump. -/
theorem fixup_accepts {α : Type} {sections : List Section} {image : RingImage α}
    {consumed committed : Nat} {name recTop : HostPtr} (spans : image.ring.Spans consumed committed)
    (counters : image.ring.dropcnt ≤ image.ring.seqnum)
    (prio : image.prio ≤ RingImage.priorityCeiling)
    (size : image.recordSize ≠ 0 ∧ image.recordSize ≤ 1024 * 1024)
    (tailroom : image.recTailroom ≤ image.recordSize)
    (named : remap sections image.name 0 = some name)
    (found : remap sections image.recTop (image.recordSize * (image.ring.capacity + 1)).toUInt64 =
      some recTop) :
    image.fixup sections false = some { ring := image.ring, name, recTop } := by
  have low (position : Nat) : slotOf image.ring.capacity position ≤ image.ring.capacity := by
    rw [UInt32.le_iff_toNat_le, slotOf_toNat spans.isMask]
    exact Nat.le_of_lt_succ (Nat.mod_lt _ (Nat.succ_pos _))
  have inside : ¬ (image.ring.capacity < image.ring.head ∨
      image.ring.capacity < image.ring.tail) := by
    rw [spans.head, spans.tail, not_or, UInt32.not_lt, UInt32.not_lt]
    exact ⟨low _, low _⟩
  rw [RingImage.fixup, if_neg (UInt64.not_lt.mpr counters), if_neg (Int32.not_lt.mpr prio),
    if_neg (not_or.mpr ⟨size.1, UInt32.not_lt.mpr size.2⟩), if_neg (UInt32.not_lt.mpr tailroom),
    if_neg inside, named, found]
  rfl

/-- What the constructor of a ring chose: the sizes of a record, and where the
name and the records lie. -/
structure Placement where
  recShift : UInt32
  recTailroom : UInt32
  name : UInt64
  recTop : UInt64

namespace Placement

variable (place : Placement)

def recordSize : UInt32 := 1 <<< place.recShift

/-- The `ringbuf` object in the core dump. -/
def image (obj : RingObj) : RingImage Record where
  ring := obj.ring
  prio := Int32.ofInt obj.prio
  recShift := place.recShift
  recTailroom := place.recTailroom
  name := place.name
  recTop := place.recTop

/-- The sizes are sane, and the dump has the name and the records of a ring
with `mask + 1` slots. -/
structure Loaded (sections : List Section) (mask : UInt32) : Prop where
  size : place.recordSize ≠ 0 ∧ place.recordSize ≤ 1024 * 1024
  tailroom : place.recTailroom ≤ place.recordSize
  name : (remap sections place.name 0).isSome
  records : (remap sections place.recTop (place.recordSize * (mask + 1)).toUInt64).isSome

end Placement

variable {engine : Engine} {ring : RingId}

theorem image_accepted {place : Placement} {sections : List Section} {born : RingObj}
    (sound : engine.Sound) (tallied : Tallied born ring engine)
    (ceiling : -2 ^ 31 ≤ born.prio ∧ born.prio ≤ 9999)
    (loaded : place.Loaded sections born.ring.capacity) :
    ∃ fixed, (place.image (engine.obj ring)).fixup sections false = some fixed ∧
      fixed.ring = (engine.obj ring).ring := by
  obtain ⟨name, named⟩ := Option.isSome_iff_exists.mp loaded.name
  obtain ⟨recTop, found⟩ := Option.isSome_iff_exists.mp loaded.records
  have prio : Int32.ofInt (engine.obj ring).prio ≤ RingImage.priorityCeiling := by
    rw [tallied.prio, Int32.le_iff_toInt_le, Int32.toInt_ofInt_of_le ceiling.1 (by omega)]
    exact ceiling.2
  have counters : (engine.obj ring).ring.dropcnt ≤ (engine.obj ring).ring.seqnum := by
    have few := tallied.dropcnt
    rw [UInt64.le_iff_toNat_le, tallied.seqnum]
    omega
  rw [← tallied.capacity] at found
  exact ⟨_, fixup_accepts (sound.tracked.spanned ring) counters prio loaded.size loaded.tailroom
    named found, rfl⟩

/-- What the tool shows of a ring, behind the records that were handed over
already, is what was not. -/
theorem shown_rest (sound : engine.Sound) (delivering : engine.Delivering ring) :
    ∃ shown, walk (engine.obj ring).ring.capacity
        ((engine.shared.committed ring).length - engine.shared.popped ring + 1)
        (.reset (engine.obj ring).ring) = some shown ∧
      engine.shared.flushed ring ++ (shown.map (engine.obj ring).ring.slots).drop
        (engine.handed ring - engine.shared.popped ring) = engine.shared.committed ring := by
  have spans := sound.tracked.spanned ring
  have above := delivering.above
  have most := delivering.handed_le
  refine ⟨_, walk_eq spans.isMask (PopIterator.Stands.reset spans), ?_⟩
  have rest : (((List.range ((engine.shared.committed ring).length -
      engine.shared.popped ring)).map fun offset => slotOf (engine.obj ring).ring.capacity
        (engine.shared.popped ring + offset)).map (engine.obj ring).ring.slots).drop
          (engine.handed ring - engine.shared.popped ring) =
        (engine.shared.committed ring).drop (engine.handed ring) := by
    apply List.ext_getElem
    · simp only [List.length_drop, List.length_map, List.length_range]
      omega
    · intro offset _ inside
      rw [List.length_drop] at inside
      have position : engine.shared.popped ring +
          (engine.handed ring - engine.shared.popped ring + offset) =
            engine.handed ring + offset := by omega
      simp only [List.getElem_drop, List.getElem_map, List.getElem_range, position]
      exact delivering.record_at (Nat.le_add_right _ _) (by omega)
  exact (congrArg _ rest).trans (List.prefix_iff_eq_append.mp delivering.delivered)

/-- Whenever the process dies, the recovery tool accepts every ring it finds
loaded and shows what the output was not given: what was handed to the output
and what is shown make up what was committed.  Only records that the running
poll handed over are shown a second time. -/
theorem crash_loses_nothing (std : StdSort) (capacity : UInt32) (tsoDisabled : Bool)
    (_ : tsoDisabled = true ∨ 2 ≤ tsoSize capacity) (timesource : UInt64)
    (rings : RingId → RingObj) (fresh : ∀ ring, (rings ring).Fresh) (actions : List Action)
    (ring : RingId) (ceiling : -2 ^ 31 ≤ (rings ring).prio ∧ (rings ring).prio ≤ 9999)
    (place : Placement) (sections : List Section)
    (loaded : place.Loaded sections (rings ring).ring.capacity)
    (bounded : ∀ record ∈ ((Engine.create capacity tsoDisabled timesource rings).after std
      actions).shared.committed ring,
      record.timestamp.toNat + slotCount (((Engine.create capacity tsoDisabled timesource
        rings).after std actions).obj ring).ring.capacity ≤ 2 ^ 64)
    (numbers : numbersTaken ring ((Engine.create capacity tsoDisabled timesource rings).after std
      actions).shared.trace < 2 ^ 64) :
    let engine := (Engine.create capacity tsoDisabled timesource rings).after std actions
    ∃ fixed rounds shown again, (place.image (engine.obj ring)).fixup sections false = some fixed ∧
      walk fixed.ring.capacity rounds (.reset fixed.ring) = some shown ∧
      engine.shared.flushed ring ++ (shown.map fixed.ring.slots).drop again =
        engine.shared.committed ring ∧
      (engine.pc = .idle → again = 0) ∧
      ∃ earlier events, engine.shared.trace = earlier ++ events ∧ .polled ∉ events ∧
        again ≤ (flushedTo ring events).length := by
  intro engine
  have sound : engine.Sound :=
    (Engine.create_sound capacity tsoDisabled timesource fresh).after std actions
  obtain ⟨delivering, earlier, events, split, unpolled, few⟩ := after_lingering std capacity
    tsoDisabled timesource fresh actions (climbing_of_bounded bounded)
  obtain ⟨fixed, accepted, same⟩ := image_accepted sound
    (after_tallied std capacity tsoDisabled timesource fresh actions ring numbers) ceiling loaded
  obtain ⟨shown, walked, whole⟩ := shown_rest sound delivering
  refine ⟨fixed, _, shown, _, accepted, by rw [same]; exact walked, by rw [same]; exact whole, ?_,
    earlier, events, split, unpolled, Nat.sub_le_iff_le_add'.mpr few⟩
  intro idle
  rw [delivering.popped_idle sound idle, Nat.sub_self]

/-- The process dies in the middle of a poll, with one record out and one in
the ring. -/
def crashRun : List Action :=
  [.client (.addNamed 0), .client (.markDirty 0),
    .client (.begin 0 { Post.zeroRecord 256 with timestamp := 5 }), .client (.finish 0)] ++
    List.replicate 8 (.engine true) ++
  [.client (.begin 0 { Post.zeroRecord 256 with timestamp := 9 }), .client (.finish 0)]

theorem crash_loses_nothing_mid_poll :
    let engine := (Engine.create 2 false 0 fun _ => .made 3 false (ascii "ring")).after .insertion
      crashRun
    (engine.shared.flushed 0).map (·.timestamp) = [5] ∧ engine.pc ≠ .idle ∧
    ∃ fixed rounds shown again,
      (Placement.image ⟨8, 224, 0x1000, 0x2000⟩ (engine.obj 0)).fixup fourSlotsMemory false =
        some fixed ∧
      walk fixed.ring.capacity rounds (.reset fixed.ring) = some shown ∧
      engine.shared.flushed 0 ++ (shown.map fixed.ring.slots).drop again =
        engine.shared.committed 0 ∧
      (engine.pc = .idle → again = 0) ∧
      ∃ earlier events, engine.shared.trace = earlier ++ events ∧ .polled ∉ events ∧
        again ≤ (flushedTo 0 events).length :=
  ⟨by decide +kernel, by decide +kernel,
    crash_loses_nothing .insertion 2 false (by decide) 0 (fun _ => .made 3 false (ascii "ring"))
      (fun _ => RingObj.made_fresh ⟨2, rfl⟩ _ _) crashRun 0 (by decide) ⟨8, 224, 0x1000, 0x2000⟩
      fourSlotsMemory ⟨by decide, by decide, rfl, rfl⟩ (by decide +kernel) (by decide +kernel)⟩

end Hogl.Recover
