import Hogl.Engine.DropAccounting

namespace Hogl.Polling

open Hogl.Data Hogl.Ring

/-! # Rings that lose no number

Every number that a ring hands out goes to a record that is committed to it,
unless a push is dropped or a flush gives up for lack of room.  As long as
neither happens, the record at a position of the ring has that position for
its number, and an index entry that starts out with the first of them never
sees a gap.
-/

namespace RingObj

variable (obj : RingObj)

/-- The number of the record that is committed next. -/
def upcoming : Nat :=
  match obj.writer with
  | .idle | .awaiting _ => obj.ring.seqnum.toNat
  | .filled | .armed => (obj.ring.slots obj.ring.tail).seqnum.toNat
  | .reserved seqnum => seqnum.toNat

/-- The number of the record that an engine sees first. -/
def oldest : Nat :=
  match obj.ring.popBegin with
  | some slot => (obj.ring.slots slot).seqnum.toNat
  | none => obj.upcoming

/-- The next number is `next`, and the counter is past a number that is taken. -/
def Numbers (next : Nat) : Prop :=
  match obj.writer with
  | .idle | .awaiting _ => obj.ring.seqnum.toNat = next
  | .filled | .armed => obj.ring.seqnum.toNat = next + 1 ∧
      (obj.ring.slots obj.ring.tail).seqnum.toNat = next
  | .reserved seqnum => obj.ring.seqnum.toNat = next + 1 ∧ seqnum.toNat = next

variable {obj}

theorem Numbers.upcoming {next : Nat} (numbers : obj.Numbers next) : obj.upcoming = next := by
  cases place : obj.writer with
  | idle | awaiting slot =>
      simp only [Numbers, place] at numbers
      simp only [RingObj.upcoming, place, numbers]
  | filled | armed =>
      simp only [Numbers, place] at numbers
      simp only [RingObj.upcoming, place, numbers.2]
  | reserved seqnum =>
      simp only [Numbers, place] at numbers
      simp only [RingObj.upcoming, place, numbers.2]

theorem Numbers.same {after : RingObj} {next : Nat} (numbers : obj.Numbers next)
    (writer : after.writer = obj.writer) (seqnum : after.ring.seqnum = obj.ring.seqnum)
    (tail : after.ring.slots after.ring.tail = obj.ring.slots obj.ring.tail) :
    after.Numbers next := by
  rw [Numbers, writer, seqnum, tail]
  exact numbers

end RingObj

/-- No push on the ring was dropped, and no flush or timesource change on it
came back without success. -/
structure Lossless (ring : RingId) (trace : List Event) : Prop where
  undropped : .dropped ring ∉ trace
  answered : .returned ring false ∉ trace

theorem Lossless.of_append {ring : RingId} {trace events : List Event}
    (lossless : Lossless ring (trace ++ events)) : Lossless ring trace :=
  ⟨fun member => lossless.undropped (List.mem_append_left _ member),
    fun member => lossless.answered (List.mem_append_left _ member)⟩

/-- A writer that goes from its wait for room back to its caller says so. -/
theorem Lossless.waits {ring : RingId} {before after : Shared} (lossless : Lossless ring after.trace)
    (step : Shared.WriterStep ring before after) (seqnum : UInt64)
    (waiting : (before.rings ring).writer = .reserved seqnum) :
    (after.rings ring).writer ≠ .idle := by
  intro idle
  cases step with
  | same _ writerEq => cases (writerEq.symm.trans idle).symm.trans waiting
  | gaveUp _ _ _ trace =>
      refine absurd ?_ lossless.answered
      rw [trace]
      exact List.mem_append_right _ List.mem_cons_self
  | began _ other | finished other | dropped other | reserved other | published other
  | refused other | observed other | left other => cases other.symm.trans waiting
  | armed _ _ _ _ _ _ _ writerEq => cases writerEq.symm.trans idle

namespace Engine

variable {engine : Engine} {ring : RingId}

structure Numbered (ring : RingId) (engine : Engine) : Prop where
  enabled : engine.tsoDisabled = false
  numbers : ∀ (position : Nat) (record : Record),
    (engine.shared.committed ring)[position]? = some record → record.seqnum.toNat = position
  writer : (engine.obj ring).Numbers (engine.shared.committed ring).length
  expected : ∀ (i : Nat) (entry : IndexEntry), engine.index[i]? = some entry →
    entry.ring = some ring → entry.seqnum.toNat = engine.handed ring
  unreported : ∀ count, .reported ring count ∉ engine.shared.trace

namespace Numbered

/-- The record that an engine sees first is the first one not consumed. -/
theorem oldest_eq (numbered : engine.Numbered ring) (sound : engine.Sound)
    (delivering : engine.Delivering ring)
    (nowhere : ∀ i, engine.ringAt i ≠ some ring) :
    (engine.obj ring).oldest = engine.handed ring := by
  have consumed := delivering.unindexed nowhere
  have spans := sound.tracked.spanned ring
  have first := spans.popBegin_eq
  change (engine.obj ring).ring.popBegin = _ at first
  rw [RingObj.oldest, first, consumed]
  by_cases all : engine.handed ring = (engine.shared.committed ring).length
  · rw [if_pos all, all]
    exact numbered.writer.upcoming
  · rw [if_neg all]
    have more : engine.handed ring < (engine.shared.committed ring).length :=
      Nat.lt_of_le_of_ne delivering.handed_le all
    change ((engine.obj ring).ring.slots (slotOf (engine.obj ring).ring.capacity
      (engine.handed ring))).seqnum.toNat = _
    rw [delivering.record_at (Nat.le_refl _) more]
    exact numbered.numbers _ _ (List.getElem?_eq_getElem more)

theorem unconcerned {after : Engine} {events : List Event} (numbered : engine.Numbered ring)
    (trace : after.shared.trace = engine.shared.trace ++ events)
    (silent : ∀ event ∈ events, event.accounted ring = false)
    (mode : after.tsoDisabled = engine.tsoDisabled)
    (writer : (after.obj ring).writer = (engine.obj ring).writer)
    (seqnum : (after.obj ring).ring.seqnum = (engine.obj ring).ring.seqnum)
    (tail : (after.obj ring).ring.slots (after.obj ring).ring.tail =
      (engine.obj ring).ring.slots (engine.obj ring).ring.tail)
    (index : SeqnumsKept ring engine after)
    (fresh : (∀ j, engine.ringAt j ≠ some ring) → (∃ j, after.ringAt j = some ring) →
      engine.handed ring = 0) : after.Numbered ring := by
  have committed : after.shared.committed ring = engine.shared.committed ring := by
    rw [Shared.committed, trace, committedTo_append, committedTo_unaccounted silent,
      List.append_nil, Shared.committed]
  have handed : after.handed ring = engine.handed ring := by
    rw [Engine.handed, Shared.flushed, trace, flushedTo_append, flushedTo_unaccounted silent,
      List.append_nil, Engine.handed, Shared.flushed]
  refine ⟨mode.trans numbered.enabled, ?_, ?_, ?_, ?_⟩
  · rw [committed]
    exact numbered.numbers
  · rw [committed]
    exact numbered.writer.same writer seqnum tail
  · intro i entry read owns
    rw [handed]
    rcases index i entry read owns with ⟨j, old, oldRead, oldOwns, same⟩ | ⟨nowhere, zero⟩
    · rw [same]
      exact numbered.expected j old oldRead oldOwns
    · rw [zero, fresh nowhere ⟨i, ringAt_eq_some.mpr ⟨entry, read, owns⟩⟩]
      rfl
  · intro count member
    rw [trace] at member
    rcases List.mem_append.mp member with old | new
    · exact numbered.unreported count old
    · simpa [Event.accounted] using silent _ new

theorem frame {after : Engine} (numbered : engine.Numbered ring)
    (mode : after.tsoDisabled = false) (index : after.index = engine.index)
    (committed : after.shared.committed ring = engine.shared.committed ring)
    (flushed : after.shared.flushed ring = engine.shared.flushed ring)
    (writer : (after.obj ring).writer = (engine.obj ring).writer)
    (same : (after.obj ring).ring = (engine.obj ring).ring)
    (reports : ∀ count, .reported ring count ∈ after.shared.trace →
      .reported ring count ∈ engine.shared.trace) : after.Numbered ring := by
  have handed : after.handed ring = engine.handed ring := congrArg List.length flushed
  refine ⟨mode, ?_, ?_, ?_, fun count member => numbered.unreported count (reports count member)⟩
  · rw [committed]
    exact numbered.numbers
  · rw [committed]
    exact numbered.writer.same writer (by rw [same]) (by rw [same])
  · rw [index, handed]
    exact numbered.expected

theorem posted {shared : Shared} {events : List Event} (numbered : engine.Numbered ring)
    (trace : shared.trace = engine.shared.trace ++ events)
    (byClient : ∀ event ∈ events, event.byClient)
    (numbers : ∀ (position : Nat) (record : Record),
      (shared.committed ring)[position]? = some record → record.seqnum.toNat = position)
    (writer : (shared.rings ring).Numbers (shared.committed ring).length) :
    Numbered ring { engine with shared } := by
  have handed : handed { engine with shared } ring = engine.handed ring :=
    handed_byClient trace byClient
  refine ⟨numbered.enabled, numbers, writer, ?_, ?_⟩
  · rw [handed]
    exact numbered.expected
  · intro count member
    change .reported ring count ∈ shared.trace at member
    rw [trace] at member
    rcases List.mem_append.mp member with old | new
    · exact numbered.unreported count old
    · cases byClient _ new

theorem committed {shared : Shared} (numbered : engine.Numbered ring)
    (stamp : ((engine.obj ring).ring.slots (engine.obj ring).ring.tail).seqnum.toNat =
      (engine.shared.committed ring).length)
    (trace : shared.trace = engine.shared.trace ++
      [.committed ring ((engine.obj ring).ring.slots (engine.obj ring).ring.tail)])
    (writer : (shared.rings ring).Numbers ((engine.shared.committed ring).length + 1)) :
    Numbered ring { engine with shared } := by
  have committed : shared.committed ring = engine.shared.committed ring ++
      [(engine.obj ring).ring.slots (engine.obj ring).ring.tail] := by
    rw [Shared.committed, trace, committedTo_append]
    simp [committedTo, Shared.committed]
  refine numbered.posted trace (List.forall_mem_singleton.mpr rfl) ?_ ?_
  · rw [committed]
    intro position record read
    rw [List.getElem?_append] at read
    split at read
    · exact numbered.numbers position record read
    · rename_i behind
      obtain ⟨inside, found⟩ := List.getElem?_eq_some_iff.mp read
      rw [List.length_singleton] at inside
      rw [← found, List.getElem_singleton, stamp]
      omega
  · rw [committed, List.length_append, List.length_singleton]
    exact writer

theorem uncommitted {shared : Shared} {events : List Event} (numbered : engine.Numbered ring)
    (trace : shared.trace = engine.shared.trace ++ events)
    (byClient : ∀ event ∈ events, event.byClient)
    (none : committedTo ring events = [])
    (writer : (shared.rings ring).Numbers (engine.shared.committed ring).length) :
    Numbered ring { engine with shared } := by
  have committed : shared.committed ring = engine.shared.committed ring := by
    rw [Shared.committed, trace, committedTo_append, none, List.append_nil, Shared.committed]
  refine numbered.posted trace byClient ?_ ?_
  · rw [committed]
    exact numbered.numbers
  · rw [committed]
    exact writer

theorem client {shared : Shared} (numbered : engine.Numbered ring)
    (undropped : .dropped ring ∉ shared.trace)
    (waits : ∀ seqnum, (engine.obj ring).writer = .reserved seqnum →
      (shared.rings ring).writer ≠ .idle)
    (few : (engine.obj ring).ring.seqnum.toNat < 2 ^ 52)
    (step : Shared.WriterStep ring engine.shared shared) :
    Numbered ring { engine with shared } := by
  have writer := numbered.writer
  have number : ((engine.obj ring).ring.seqnum + 1).toNat =
      (engine.obj ring).ring.seqnum.toNat + 1 := by
    rw [UInt64.toNat_add, UInt64.toNat_one]
    exact Nat.mod_eq_of_lt (by omega)
  cases step with
  | @same events ringEq writerEq trace elsewhere =>
      refine numbered.unconcerned trace (fun event member => ?_) rfl writerEq
        (congrArg (·.seqnum) ringEq) ?_ (.same rfl) ?_
      · obtain ⟨byClient, silent⟩ := elsewhere event member
        exact Event.unaccounted_of_elsewhere byClient silent
      · change (shared.rings ring).ring.slots (shared.rings ring).ring.tail = _
        rw [ringEq]
        rfl
      · intro nowhere ⟨i, found⟩
        exact absurd found (nowhere i)
  | began record idle ringEq writerEq trace =>
      rw [RingObj.Numbers, show (engine.obj ring).writer = .idle from idle] at writer
      refine numbered.uncommitted trace (List.forall_mem_singleton.mpr rfl) rfl ?_
      rw [RingObj.Numbers, writerEq, ringEq]
      refine ⟨number.trans (by rw [writer]), ?_⟩
      simp only [Ringbuf.store, Ringbuf.incSeqnum, if_true, BitVec.toNat_ofNat]
      exact (Nat.mod_eq_of_lt few).trans writer
  | finished filled room ringEq writerEq trace =>
      rw [RingObj.Numbers, show (engine.obj ring).writer = .filled from filled] at writer
      refine numbered.committed writer.2 trace ?_
      rw [RingObj.Numbers, writerEq, ringEq]
      exact writer.1
  | reserved idle ringEq writerEq trace =>
      rw [RingObj.Numbers, show (engine.obj ring).writer = .idle from idle] at writer
      refine numbered.uncommitted trace (List.forall_mem_singleton.mpr rfl) rfl ?_
      rw [RingObj.Numbers, writerEq, ringEq]
      exact ⟨number.trans (by rw [writer]), writer⟩
  | @armed seqnum waiting record type arg1 arg2 room ringEq writerEq trace stamp =>
      rw [RingObj.Numbers, show (engine.obj ring).writer = .reserved seqnum from waiting] at writer
      refine numbered.uncommitted (trace.trans (List.append_nil _).symm) (List.forall_mem_nil _)
        rfl ?_
      rw [RingObj.Numbers, writerEq, ringEq]
      refine ⟨writer.1, ?_⟩
      simp only [Ringbuf.store, if_true, Record.makeSpecial, stamp, BitVec.toNat_ofNat]
      rw [Nat.mod_eq_of_lt (by omega)]
      exact writer.2
  | published armed room ringEq writerEq trace =>
      rw [RingObj.Numbers, show (engine.obj ring).writer = .armed from armed] at writer
      refine numbered.committed writer.2 trace ?_
      rw [RingObj.Numbers, writerEq, ringEq]
      exact writer.1
  | observed waiting acked ringEq writerEq trace =>
      rw [RingObj.Numbers, show (engine.obj ring).writer = _ from waiting] at writer
      refine numbered.uncommitted trace (List.forall_mem_singleton.mpr rfl) rfl ?_
      rw [RingObj.Numbers, writerEq, ringEq]
      exact writer
  | left waiting kind ringEq writerEq trace =>
      rw [RingObj.Numbers, show (engine.obj ring).writer = _ from waiting] at writer
      refine numbered.uncommitted trace ?_ ?_ ?_
      · rcases kind with rfl | rfl <;> exact List.forall_mem_singleton.mpr rfl
      · rcases kind with rfl | rfl <;> rfl
      · rw [RingObj.Numbers, writerEq, ringEq]
        exact writer
  | dropped _ _ _ trace =>
      refine absurd ?_ undropped
      rw [trace]
      exact List.mem_append_right _ List.mem_cons_self
  | refused _ _ _ _ trace =>
      refine absurd ?_ undropped
      rw [trace]
      exact List.mem_append_right _ List.mem_cons_self
  | gaveUp waiting _ writerEq _ => exact absurd writerEq (waits _ waiting)

/-- The record handed over has the number that is expected of it. -/
theorem flush_own {left : Nat} {caller : Caller} {te : TsoEntry} {rest : List TsoEntry}
    {entry : IndexEntry} (numbered : engine.Numbered ring) (sound : engine.Sound)
    (delivering : engine.Delivering ring) (entries : engine.tso.entries = te :: rest)
    (found : engine.index[te.tag]? = some entry) (valid : entry.ring = some ring)
    (tail : (((engine.popTo left caller rest).flushEntry te).obj ring).ring.slots
      (((engine.popTo left caller rest).flushEntry te).obj ring).ring.tail =
      (engine.obj ring).ring.slots (engine.obj ring).ring.tail) :
    ((engine.popTo left caller rest).flushEntry te).Numbered ring := by
  have popped := @Delivering.popped engine ring left caller te rest entry delivering sound entries
    found valid
  have expected := numbered.expected te.tag entry found valid
  have number : ((engine.obj ring).ring.slots te.slot).seqnum.toNat = engine.handed ring := by
    rw [popped.slot, delivering.record_at (Nat.le_refl _) popped.more]
    exact numbered.numbers _ _ (List.getElem?_eq_getElem popped.more)
  have small := ((engine.obj ring).ring.slots te.slot).seqnum.isLt
  have given : Handed (engine.popTo left caller rest)
    ((engine.popTo left caller rest).flushEntry te) ring te.slot := flushEntry_handed found valid
  have flushes : Flushes (engine.popTo left caller rest)
    ((engine.popTo left caller rest).flushEntry te) ring te.slot
      (dropReport ring ((engine.obj ring).ring.slots te.slot) entry.seqnum) :=
        flushEntry_flushes found valid
  have none : dropReport ring ((engine.obj ring).ring.slots te.slot) entry.seqnum = [] := by
    rw [dropReport, if_pos]
    apply UInt64.toNat_inj.mp
    rw [UInt64.toNat_ofNat', Nat.mod_eq_of_lt (by omega), number, expected]
  rw [none] at flushes
  obtain ⟨notes, after, injected, afterInjected, trace⟩ := flushes
  have objs := given.objs ring
  refine ⟨given.tsoDisabled.trans numbered.enabled, ?_, ?_, ?_, ?_⟩
  · rw [popped.committed]
    exact numbered.numbers
  · rw [popped.committed]
    exact numbered.writer.same objs.writer objs.seqnum tail
  · intro j other read owns
    rw [(popped.sole j other read owns).2, popped.handed]
    dsimp only
    rw [UInt64.toNat_add, UInt64.toNat_ofNat', UInt64.toNat_one]
    omega
  · intro count member
    rw [trace] at member
    simp only [List.append_nil, List.mem_append, List.mem_cons, List.not_mem_nil, or_false]
      at member
    rcases member with (old | note) | (same | note) | last
    · exact numbered.unreported count old
    · cases injected _ note
    · cases same
    · cases afterInjected _ note
    · split at last <;> cases last

theorem step {std : StdSort} {next : Engine} (numbered : engine.Numbered ring)
    (sound : engine.Sound) (delivering : engine.Delivering ring)
    (shape : engine.EngineStep std next)
    (fresh : (∀ i, engine.ringAt i ≠ some ring) → (∃ i, next.ringAt i = some ring) →
      (engine.obj ring).oldest = 0) : next.Numbered ring := by
  have objs := shape.objs ring
  have tail := shape.tail_kept sound.tracked ring
  rcases shape.unconcerned_or_flush sound numbered.enabled ring with
    ⟨events, trace, silent, seqnums⟩ | ⟨left, caller, te, rest, entry, entries, found, valid, rfl⟩
  · refine numbered.unconcerned trace silent shape.mode objs.writer objs.seqnum tail seqnums ?_
    intro nowhere indexed
    exact (numbered.oldest_eq sound delivering nowhere).symm.trans (fresh nowhere indexed)
  · exact numbered.flush_own sound delivering entries found valid tail

end Numbered

theorem create_numbered (capacity : UInt32) (timesource : UInt64) {rings : RingId → RingObj}
    (fresh : ∀ ring, (rings ring).Fresh) (ring : RingId) :
    (create capacity false timesource rings).Numbered ring where
  enabled := rfl
  numbers _ _ read := by cases read
  writer := by
    obtain ⟨mask, slots, -, made⟩ := (fresh ring).made
    change (rings ring).Numbers 0
    rw [RingObj.Numbers, (fresh ring).writer, made]
    rfl
  expected _ _ read := by cases read
  unreported _ member := absurd member List.not_mem_nil

end Engine

end Hogl.Polling
