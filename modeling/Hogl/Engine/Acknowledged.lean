import Hogl.Engine.ExactlyOnce
import Hogl.Engine.Writers
import Hogl.Data.Histories

namespace Hogl.Polling

open Hogl.Data Hogl.Ring

/-! # A successful flush

`do_flush` waits for a word in a slot that is reused every time the ring goes
round.  The word it sees is the one written for its own record, and by then
everything committed before that record was handed over.
-/

/-- The records of one ring that the output processed, oldest first. -/
def outputTo (ring : RingId) (trace : List Event) : List Record :=
  trace.filterMap fun
    | .output other record => if other = ring then some record else none
    | _ => none

theorem outputTo_append (ring : RingId) (first second : List Event) :
    outputTo ring (first ++ second) = outputTo ring first ++ outputTo ring second :=
  List.filterMap_append

/-- What happened before a flush of `ring` returned true.  `record` is its
special record: the last one committed to the ring, acknowledged since then in
its own slot, with every committed record handed over and output. -/
def Answered (ring : RingId) (mask : UInt32) (earlier : List Event) : Prop :=
  ∃ before record between, earlier = before ++ .committed ring record :: between ∧
    record.special = true ∧ committedTo ring between = [] ∧
    .acked ring (slotOf mask (committedTo ring before).length) ∈ between ∧
    flushedTo ring earlier = committedTo ring earlier ∧
    outputTo ring earlier = (committedTo ring earlier).filter fun record => !record.special

theorem outputTo_silent {ring : RingId} {events : List Event}
    (silent : ∀ event ∈ events, ∀ record, event ≠ .output ring record) :
    outputTo ring events = [] := by
  rw [outputTo, List.filterMap_eq_nil_iff]
  intro event member
  have other := silent event member
  cases event with
  | output owner record => exact if_neg fun same => other record (by rw [same])
  | _ => rfl

theorem committedTo_unposted {ring : RingId} {events : List Event}
    (silent : ∀ event ∈ events, event.postingTo ring = false) : committedTo ring events = [] := by
  apply committedTo_silent
  rintro event member record rfl
  exact absurd (silent _ member) (by simp [Event.postingTo])

namespace Engine

variable {engine : Engine} {ring : RingId} {mask : UInt32}

/-- Where the writer of the ring stands in a flush. -/
structure Awaited (ring : RingId) (mask : UInt32) (engine : Engine) : Prop where
  capacity : (engine.obj ring).ring.capacity = mask
  outputs : outputTo ring engine.shared.trace =
    (engine.shared.flushed ring).filter fun record => !record.special
  armed : (engine.obj ring).writer = .armed →
    (engine.obj ring).ring.head ≠ (engine.obj ring).ring.tail ∧
    ((engine.obj ring).ring.slots (engine.obj ring).ring.tail).special = true ∧
    ((engine.obj ring).ring.slots (engine.obj ring).ring.tail).acked = false
  awaiting : ∀ slot, (engine.obj ring).writer = .awaiting slot → ∃ before record between,
    engine.shared.trace = before ++ .committed ring record :: between ∧
    record.special = true ∧ record.acked = false ∧
    slot = slotOf mask (committedTo ring before).length ∧ committedTo ring between = [] ∧
    (engine.handed ring = (committedTo ring before).length + 1 → .acked ring slot ∈ between)
  answered : AtEach (fun earlier event => event = .returned ring true → Answered ring mask earlier)
    engine.shared.trace

theorem committedTo_split {before between : List Event} {record : Record}
    (none : committedTo ring between = []) :
    committedTo ring (before ++ .committed ring record :: between) =
      committedTo ring before ++ [record] := by
  rw [committedTo_append, ← List.singleton_append, committedTo_append, none, List.append_nil]
  simp [committedTo]

theorem Flushes.lists {after : Engine} {owner : RingId} {slot : UInt32} {report : List Event}
    (flushes : Flushes engine after owner slot report)
    (reports : ∀ event ∈ report, ∃ count, event = .reported owner count) (ring : RingId) :
    ∃ events, after.shared.trace = engine.shared.trace ++ events ∧
      flushedTo ring events = (if owner = ring then [(engine.obj owner).ring.slots slot] else []) ∧
      outputTo ring events = (if owner = ring then
        [(engine.obj owner).ring.slots slot].filter fun record => !record.special else []) ∧
      (((engine.obj owner).ring.slots slot).special = true → .acked owner slot ∈ events) := by
  obtain ⟨notes, more, injected, moreInjected, trace⟩ := flushes
  obtain ⟨record, recordEq⟩ : ∃ record, record = (engine.obj owner).ring.slots slot := ⟨_, rfl⟩
  rw [← recordEq] at trace ⊢
  have quiet (events : List Event) (minor : ∀ event ∈ events, event.isInjected) :
      flushedTo ring events = [] ∧ outputTo ring events = [] := by
    constructor
    · apply flushedTo_silent
      rintro event member record rfl
      cases minor _ member
    · apply outputTo_silent
      rintro event member record rfl
      cases minor _ member
  have reported : flushedTo ring report = [] ∧ outputTo ring report = [] := by
    constructor
    · apply flushedTo_silent
      rintro event member record rfl
      obtain ⟨count, same⟩ := reports _ member
      cases same
    · apply outputTo_silent
      rintro event member record rfl
      obtain ⟨count, same⟩ := reports _ member
      cases same
  refine ⟨notes ++ (report ++ (.flushed owner record :: more ++
    [if record.special then .acked owner slot else .output owner record])), ?_, ?_, ?_, ?_⟩
  · rw [trace]
    simp only [List.append_assoc]
  · rw [flushedTo_append, flushedTo_append, flushedTo_append, (quiet notes injected).1, reported.1,
      ← List.singleton_append, flushedTo_append, (quiet more moreInjected).1]
    by_cases same : owner = ring <;> cases record.special <;> simp [flushedTo, same]
  · rw [outputTo_append, outputTo_append, outputTo_append, (quiet notes injected).2, reported.2,
      ← List.singleton_append, outputTo_append, (quiet more moreInjected).2]
    by_cases same : owner = ring <;> cases kind : record.special <;> simp [outputTo, same, kind]
  · intro special
    simp [special]

namespace Awaited

/-- The writer sees the word only after its record was handed over. -/
theorem observed {slot : UInt32} (awaited : engine.Awaited ring mask)
    (delivering : engine.Delivering ring) (waiting : (engine.obj ring).writer = .awaiting slot)
    (acked : ((engine.obj ring).ring.slots slot).acked = true) :
    Answered ring mask engine.shared.trace := by
  obtain ⟨before, record, between, trace, special, fresh, slotEq, none, word⟩ :=
    awaited.awaiting slot waiting
  have committed : engine.shared.committed ring = committedTo ring before ++ [record] := by
    rw [Shared.committed, trace, committedTo_split none]
  have all : engine.handed ring = (committedTo ring before).length + 1 := by
    have upper := delivering.handed_le
    rw [committed, List.length_append, List.length_singleton] at upper
    by_contra fewer
    have stored := delivering.stores (committedTo ring before).length record
      (by omega) (by rw [committed, List.getElem?_concat_length])
    rw [awaited.capacity, ← slotEq] at stored
    rw [stored, fresh] at acked
    cases acked
  have flushed : engine.shared.flushed ring = engine.shared.committed ring := by
    apply delivering.delivered.eq_of_length
    rw [committed, List.length_append, List.length_singleton]
    exact all
  refine ⟨before, record, between, trace, special, none, slotEq ▸ word all, flushed, ?_⟩
  rw [awaited.outputs, flushed]
  rfl

theorem same {shared : Shared} {events : List Event} (awaited : engine.Awaited ring mask)
    (capacity : (shared.rings ring).ring.capacity = (engine.obj ring).ring.capacity)
    (trace : shared.trace = engine.shared.trace ++ events)
    (byClient : ∀ event ∈ events, event.byClient)
    (answered : AtEach (fun earlier event => event = .returned ring true →
      Answered ring mask earlier) (engine.shared.trace ++ events))
    (armed : (shared.rings ring).writer = .armed →
      (shared.rings ring).ring.head ≠ (shared.rings ring).ring.tail ∧
      ((shared.rings ring).ring.slots (shared.rings ring).ring.tail).special = true ∧
      ((shared.rings ring).ring.slots (shared.rings ring).ring.tail).acked = false)
    (awaiting : ∀ slot, (shared.rings ring).writer = .awaiting slot → ∃ before record between,
      shared.trace = before ++ .committed ring record :: between ∧
      record.special = true ∧ record.acked = false ∧
      slot = slotOf mask (committedTo ring before).length ∧ committedTo ring between = [] ∧
      (engine.handed ring = (committedTo ring before).length + 1 → .acked ring slot ∈ between)) :
    Awaited ring mask { engine with shared } := by
  have flushed : shared.flushed ring = engine.shared.flushed ring := by
    rw [Shared.flushed, trace, flushedTo_append, flushedTo_byClient byClient, List.append_nil,
      Shared.flushed]
  have noOutput : outputTo ring events = [] := by
    apply outputTo_silent
    rintro event member record rfl
    exact absurd (byClient _ member) (by simp [Event.byClient])
  refine ⟨capacity.trans awaited.capacity, ?_, armed, ?_, ?_⟩
  · change outputTo ring shared.trace = (shared.flushed ring).filter _
    rw [flushed, trace, outputTo_append, noOutput, List.append_nil]
    exact awaited.outputs
  · intro slot waiting
    obtain ⟨before, record, between, rest⟩ := awaiting slot waiting
    refine ⟨before, record, between, ?_⟩
    rw [show handed { engine with shared } ring = engine.handed ring from
      congrArg List.length flushed]
    exact rest
  · change AtEach _ shared.trace
    rw [trace]
    exact answered

theorem unanswered {events : List Event} (awaited : engine.Awaited ring mask)
    (silent : ∀ event ∈ events, event ≠ .returned ring true) :
    AtEach (fun earlier event => event = .returned ring true → Answered ring mask earlier)
      (engine.shared.trace ++ events) :=
  awaited.answered.append_of fun event member _ returned => absurd returned (silent event member)

theorem client {shared : Shared} (awaited : engine.Awaited ring mask) (sound : engine.Sound)
    (delivering : engine.Delivering ring) (step : Shared.ClientStep engine.shared shared)
    (writer : Shared.WriterStep ring engine.shared shared) :
    Awaited ring mask { engine with shared } := by
  have spans := sound.tracked.spanned ring
  have capacity := (step.same ring).capacity
  cases writer with
  | @same events ringEq writerEq trace elsewhere =>
      refine awaited.same capacity trace (fun event member => (elsewhere event member).1)
        (awaited.unanswered ?_) ?_ ?_
      · rintro event member rfl
        have silent := (elsewhere _ member).2
        simp [Event.postingTo] at silent
      · rw [ringEq, writerEq]
        exact awaited.armed
      · intro slot waiting
        rw [writerEq] at waiting
        obtain ⟨before, record, between, old, special, fresh, slotEq, none, word⟩ :=
          awaited.awaiting slot waiting
        refine ⟨before, record, between ++ events, ?_, special, fresh, slotEq, ?_,
          fun all => List.mem_append_left _ (word all)⟩
        · rw [trace, old, List.append_assoc, List.cons_append]
        · rw [committedTo_append, none,
            committedTo_unposted fun event member => (elsewhere event member).2, List.append_nil]
  | began _ _ _ writerEq trace | finished _ _ _ writerEq trace | dropped _ _ writerEq trace
  | reserved _ _ writerEq trace | gaveUp _ _ writerEq trace =>
      exact awaited.same capacity trace (List.forall_mem_singleton.mpr rfl)
        (awaited.unanswered (List.forall_mem_singleton.mpr (by simp))) (by simp [writerEq])
        (by simp [writerEq])
  | left _ kind ringEq writerEq trace =>
      refine awaited.same capacity trace (List.forall_mem_singleton.mpr ?_)
        (awaited.unanswered (List.forall_mem_singleton.mpr ?_)) (by simp [writerEq])
        (by simp [writerEq])
      · rcases kind with rfl | rfl <;> rfl
      · rcases kind with rfl | rfl <;> simp
  | armed _ record type arg1 arg2 room ringEq writerEq trace =>
      refine awaited.same capacity (trace.trans (List.append_nil _).symm) (List.forall_mem_nil _)
        (awaited.unanswered (List.forall_mem_nil _)) (fun _ => ?_) (by simp [writerEq])
      have tail : ((engine.obj ring).ring.store (engine.obj ring).ring.tail
          (record.makeSpecial type arg1 arg2)).slots (engine.obj ring).ring.tail =
            record.makeSpecial type arg1 arg2 := by simp [Ringbuf.store]
      rw [ringEq]
      refine ⟨?_, ?_, ?_⟩
      · intro full
        have none := spans.room_toNat
        rw [spans.full_iff.mp full, Nat.sub_self] at none
        exact room (UInt32.toNat_inj.mp none)
      · exact tail.symm ▸ record.makeSpecial_special type arg1 arg2
      · exact tail.symm ▸ record.makeSpecial_acked type arg1 arg2
  | published isArmed room ringEq writerEq trace =>
      obtain ⟨-, special, fresh⟩ := awaited.armed isArmed
      refine awaited.same capacity trace (List.forall_mem_singleton.mpr rfl)
        (awaited.unanswered (List.forall_mem_singleton.mpr (by simp))) (by simp [writerEq]) ?_
      intro slot waiting
      obtain rfl := Writer.awaiting.inj (writerEq.symm.trans waiting)
      refine ⟨engine.shared.trace, _, [], trace, special, fresh, ?_, rfl, fun all => ?_⟩
      · rw [← awaited.capacity]
        exact spans.tail
      · have upper := delivering.handed_le
        change engine.handed ring ≤ (committedTo ring engine.shared.trace).length at upper
        omega
  | refused isArmed full => exact absurd full (awaited.armed isArmed).1
  | observed waiting acked ringEq writerEq trace =>
      exact awaited.same capacity trace (List.forall_mem_singleton.mpr rfl)
        (awaited.answered.concat fun _ => awaited.observed delivering waiting acked)
        (by simp [writerEq]) (by simp [writerEq])

/-- A step of the engine keeps the slot that an armed writer has filled. -/
theorem step_armed {std : StdSort} {next : Engine} (awaited : engine.Awaited ring mask)
    (sound : engine.Sound) (after : next.Sound) (shape : engine.EngineStep std next)
    (isArmed : (next.obj ring).writer = .armed) :
    (next.obj ring).ring.head ≠ (next.obj ring).ring.tail ∧
    ((next.obj ring).ring.slots (next.obj ring).ring.tail).special = true ∧
    ((next.obj ring).ring.slots (next.obj ring).ring.tail).acked = false := by
  have objs := shape.objs ring
  have spans := sound.tracked.spanned ring
  have spansAfter := after.tracked.spanned ring
  have kept := shape.tail_kept sound.tracked ring
  have popped := (shape.ring_kept sound.tracked ring).popped
  obtain ⟨room, special, fresh⟩ := awaited.armed (objs.writer.symm.trans isArmed)
  refine ⟨?_, by rw [kept, special], by rw [kept, fresh]⟩
  intro full
  have filled := spansAfter.full_iff.mp full
  have bounded := spans.bounded
  rw [shape.committed_eq, show (next.shared.rings ring).ring.capacity =
    (engine.shared.rings ring).ring.capacity from objs.capacity] at filled
  exact room (spans.full_iff.mpr (by omega))

theorem step {std : StdSort} {next : Engine} (awaited : engine.Awaited ring mask)
    (sound : engine.Sound) (after : next.Sound) (delivering : engine.Delivering ring)
    (shape : engine.EngineStep std next) : next.Awaited ring mask := by
  have objs := shape.objs ring
  have capacity : (next.obj ring).ring.capacity = mask := objs.capacity.trans awaited.capacity
  have armed := awaited.step_armed sound after shape
  obtain ⟨events, trace, byEngine⟩ := shape.trace
  have answered : AtEach (fun earlier event => event = .returned ring true →
      Answered ring mask earlier) next.shared.trace := by
    rw [trace]
    refine awaited.unanswered ?_
    rintro event member rfl
    exact absurd (byEngine _ member) (by simp [Event.byClient])
  have noCommit : committedTo ring events = [] := committedTo_byEngine byEngine ring
  have waits {slot : UInt32} (waiting : (next.obj ring).writer = .awaiting slot) :=
    awaited.awaiting slot (objs.writer.symm.trans waiting)
  rcases shape.aside_or_flushes sound delivering with ⟨others, trace', aside⟩ |
    ⟨owner, slot, report, flushes, reports, isNext⟩
  · obtain rfl : others = events := List.append_cancel_left (trace'.symm.trans trace)
    have flushed : next.shared.flushed ring = engine.shared.flushed ring := by
      rw [Shared.flushed, trace, flushedTo_append, Shared.flushed, List.append_right_eq_self]
      apply flushedTo_silent
      rintro event member record rfl
      exact absurd (aside _ member) (by simp [Event.aside])
    refine ⟨capacity, ?_, armed, ?_, answered⟩
    · rw [flushed, trace, outputTo_append, awaited.outputs, List.append_right_eq_self]
      apply outputTo_silent
      rintro event member record rfl
      exact absurd (aside _ member) (by simp [Event.aside])
    · intro slot waiting
      obtain ⟨before, record, between, old, special, fresh, slotEq, none, word⟩ := waits waiting
      refine ⟨before, record, between ++ others, ?_, special, fresh, slotEq, ?_, ?_⟩
      · rw [trace, old, List.append_assoc, List.cons_append]
      · rw [committedTo_append, none, noCommit, List.append_nil]
      · rw [handed, flushed]
        exact fun all => List.mem_append_left _ (word all)
  · obtain ⟨others, trace', flushed, outputs, word'⟩ := flushes.lists reports ring
    obtain rfl : others = events := List.append_cancel_left (trace'.symm.trans trace)
    have flushedNow : next.shared.flushed ring = engine.shared.flushed ring ++
        if owner = ring then [(engine.obj owner).ring.slots slot] else [] := by
      rw [Shared.flushed, trace, flushedTo_append, flushed, Shared.flushed]
    refine ⟨capacity, ?_, armed, ?_, answered⟩
    · rw [flushedNow, trace, outputTo_append, awaited.outputs, outputs, List.filter_append]
      split
      · rfl
      · rfl
    · intro awaitedSlot waiting
      obtain ⟨before, record, between, old, special, fresh, slotEq, none, word⟩ := waits waiting
      refine ⟨before, record, between ++ others, ?_, special, fresh, slotEq, ?_, fun all => ?_⟩
      · rw [trace, old, List.append_assoc, List.cons_append]
      · rw [committedTo_append, none, noCommit, List.append_nil]
      · rw [handed, flushedNow, List.length_append] at all
        by_cases same : owner = ring
        · subst same
          obtain ⟨slotNext, more⟩ := isNext rfl
          rw [if_pos rfl, List.length_singleton] at all
          have position : engine.handed owner = (committedTo owner before).length := by
            rw [handed]
            omega
          -- The record handed over now is the one the writer waits for.
          have committed : engine.shared.committed owner = committedTo owner before ++ [record] := by
            rw [Shared.committed, old, committedTo_split none]
          have stored := delivering.stores (committedTo owner before).length record
            (Nat.le_of_eq position) (by rw [committed, List.getElem?_concat_length])
          rw [← position, ← slotNext] at stored
          apply List.mem_append_right
          rw [slotEq, ← awaited.capacity, ← position, ← slotNext]
          exact word' (by rw [stored, special])
        · rw [if_neg same, List.length_nil, Nat.add_zero] at all
          exact List.mem_append_left _ (word all)

end Awaited

theorem create_awaited (capacity : UInt32) (tsoDisabled : Bool) (timesource : UInt64)
    {rings : RingId → RingObj} (fresh : ∀ ring, (rings ring).Fresh) (ring : RingId) :
    (create capacity tsoDisabled timesource rings).Awaited ring (rings ring).ring.capacity where
  capacity := rfl
  outputs := rfl
  armed writer := by cases (fresh ring).writer.symm.trans writer
  awaiting slot writer := by cases (fresh ring).writer.symm.trans writer
  answered := atEach_nil _

/-- Whenever a flush of a ring returns true, its own record was acknowledged
after it was committed, and everything committed to the ring up to then was
handed to the output. -/
theorem flush_waits_for_output (std : StdSort) (capacity : UInt32) (tsoDisabled : Bool)
    (_ : tsoDisabled = true ∨ 2 ≤ tsoSize capacity) (timesource : UInt64)
    (rings : RingId → RingObj) (fresh : ∀ ring, (rings ring).Fresh) (actions : List Action)
    (ring : RingId)
    (bounded : ∀ record ∈ ((create capacity tsoDisabled timesource rings).after std
      actions).shared.committed ring,
      record.timestamp.toNat + slotCount (((create capacity tsoDisabled timesource rings).after std
        actions).obj ring).ring.capacity ≤ 2 ^ 64) :
    AtEach (fun earlier event => event = .returned ring true →
      Answered ring (rings ring).ring.capacity earlier)
      ((create capacity tsoDisabled timesource rings).after std actions).shared.trace := by
  have both := @after_induction std (Clear ring) (fun engine => engine.Delivering ring ∧
    engine.Awaited ring (rings ring).ring.capacity) _
    (create_sound capacity tsoDisabled timesource fresh) ?_ ?_ ?_ ?_ ?_ actions
    (climbing_of_bounded bounded)
  · exact both.2.answered
  · exact fun engine op _ good => .of_client (engine.shared.apply_step op) good
  · exact fun engine next _ shape good => .of_step shape good
  · exact fun _ => ⟨create_delivering capacity tsoDisabled timesource fresh ring,
      create_awaited capacity tsoDisabled timesource fresh ring⟩
  · intro engine op sound _ ⟨delivering, awaited⟩
    have step := engine.shared.apply_step op
    exact ⟨delivering.view (.client sound step),
      awaited.client sound delivering step (engine.shared.apply_writer ring op)⟩
  · intro engine next sound after shape good ⟨delivering, awaited⟩
    exact ⟨delivering.step sound (Clear.of_step shape good) shape,
      awaited.step sound after delivering shape⟩

/-- A post, and a flush that waits for it. -/
def flushRun : List Action :=
  [.client (.addNamed 0), .client (.markDirty 0),
    .client (.begin 0 { Post.zeroRecord 256 with timestamp := 5, sect := 1 }), .client (.finish 0),
    .client (.reserve 0), .client (.arm 0 7 0 0 0), .client (.publish 0)] ++
    List.replicate 10 (.engine true) ++ [.client (.observe 0)]

theorem flush_waits_for_output_one_post :
    let engine := (create 4 false 0 fun _ => .made 3 false (ascii "ring")).after .insertion flushRun
    engine.shared.trace = engine.shared.trace.dropLast ++ [.returned 0 true] ∧
      Answered 0 3 engine.shared.trace.dropLast := by
  intro engine
  have split : engine.shared.trace = engine.shared.trace.dropLast ++ [.returned 0 true] := by
    decide +kernel
  refine ⟨split, ?_⟩
  refine flush_waits_for_output .insertion 4 false (by decide) 0
    (fun _ => .made 3 false (ascii "ring")) (fun _ => RingObj.made_fresh ⟨2, rfl⟩ _ _) flushRun 0 ?_
    _ _ [] split rfl
  decide +kernel

end Engine

end Hogl.Polling
