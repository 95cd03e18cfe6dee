import Hogl.Engine.ExactlyOnce
import Hogl.Engine.Writers
import Hogl.Data.Histories

namespace Hogl.Polling

open Hogl.Data Hogl.Ring

/-! # Drops are reported exactly

A post takes a sequence number whether or not it finds room.  The engine
keeps the number it expects next in the ring index and reports the gaps.
-/

/-- The posts to a ring that found it full. -/
def droppedCount (ring : RingId) (trace : List Event) : Nat := trace.count (.dropped ring)

/-- The sum of the drop counts the engine has reported for a ring. -/
def reportedSum (ring : RingId) (trace : List Event) : Nat :=
  (trace.map fun
    | .reported other count => if other = ring then count.toNat else 0
    | _ => 0).sum

/-- `record` is the next record of the ring to be flushed after `earlier`, and
`before` is what happened before it was committed. -/
def CommittedNext (ring : RingId) (earlier : List Event) (record : Record) (before : List Event) :
    Prop :=
  ∃ between, earlier = before ++ .committed ring record :: between ∧
    (committedTo ring before).length = (flushedTo ring earlier).length

/-- Every report stands right in front of the first record behind the gap. -/
def GapsReported (ring : RingId) (trace : List Event) : Prop :=
  ∀ earlier count later, trace = earlier ++ .reported ring count :: later →
    1 ≤ count.toNat ∧ ∃ record rest before, later = .flushed ring record :: rest ∧
      CommittedNext ring earlier record before ∧
      reportedSum ring earlier + count.toNat = droppedCount ring before

/-- Every record is flushed with all drops in front of it reported. -/
def DropsReported (ring : RingId) (trace : List Event) : Prop :=
  AtEach (fun earlier event => ∀ record, event = .flushed ring record →
    ∃ before, CommittedNext ring earlier record before ∧
      reportedSum ring earlier = droppedCount ring before) trace

/-- The ring is only posted to, stays registered, and its numbers fit. -/
structure OnlyPosted (ring : RingId) (trace : List Event) : Prop where
  posts : trace.count (.begun ring) < 2 ^ 52
  unreserved : .reserved ring ∉ trace
  unreaped : .reaped ring ∉ trace

/-- The events that bear on the accounts of a ring. -/
def Event.accounted (ring : RingId) : Event → Bool
  | .begun other | .reserved other | .committed other _ | .dropped other | .flushed other _
  | .reported other _ => other == ring
  | _ => false

section Traces

variable {ring : RingId} {first second events : List Event}

theorem droppedCount_append : droppedCount ring (first ++ second) =
    droppedCount ring first + droppedCount ring second := List.count_append

theorem reportedSum_append : reportedSum ring (first ++ second) =
    reportedSum ring first + reportedSum ring second := by
  rw [reportedSum, List.map_append, List.sum_append]
  rfl

variable (silent : ∀ event ∈ events, event.accounted ring = false)

include silent

theorem committedTo_unaccounted : committedTo ring events = [] := by
  apply committedTo_silent
  rintro event member record rfl
  exact absurd (silent _ member) (by simp [Event.accounted])

theorem flushedTo_unaccounted : flushedTo ring events = [] := by
  apply flushedTo_silent
  rintro event member record rfl
  exact absurd (silent _ member) (by simp [Event.accounted])

theorem droppedCount_unaccounted : droppedCount ring events = 0 := by
  apply List.count_eq_zero_of_not_mem
  intro member
  have other := silent _ member
  simp [Event.accounted] at other

theorem begun_unaccounted : events.count (.begun ring) = 0 := by
  apply List.count_eq_zero_of_not_mem
  intro member
  have other := silent _ member
  simp [Event.accounted] at other

theorem reportedSum_unaccounted : reportedSum ring events = 0 := by
  rw [reportedSum, List.sum_eq_zero_iff_forall_eq_nat]
  intro value member
  obtain ⟨event, inside, rfl⟩ := List.mem_map.mp member
  have other := silent event inside
  cases event with
  | reported owner count =>
      have different : owner ≠ ring := by simpa [Event.accounted] using other
      simp [different]
  | _ => rfl

end Traces

theorem GapsReported.append {ring : RingId} {trace events : List Event}
    (gaps : GapsReported ring trace)
    (silent : ∀ count, .reported ring count ∉ events) : GapsReported ring (trace ++ events) := by
  intro earlier count later split
  rcases append_eq_split split with ⟨rest, old, rfl⟩ | ⟨middle, -, new⟩
  · obtain ⟨positive, record, others, before, rfl, next, sum⟩ := gaps earlier count rest old
    exact ⟨positive, record, others ++ events, before, rfl, next, sum⟩
  · exact absurd (new ▸ List.mem_append_right _ List.mem_cons_self) (silent count)

theorem GapsReported.flush {ring : RingId} {trace rest before : List Event} {record : Record}
    {count : UInt64} (gaps : GapsReported ring trace) (positive : 1 ≤ count.toNat)
    (next : CommittedNext ring trace record before)
    (sum : reportedSum ring trace + count.toNat = droppedCount ring before)
    (silent : ∀ count, .reported ring count ∉ rest) :
    GapsReported ring (trace ++ .reported ring count :: .flushed ring record :: rest) := by
  intro earlier other later split
  rcases append_eq_split split with ⟨middle, old, rfl⟩ | ⟨middle, rfl, new⟩
  · obtain ⟨still, found, others, start, rfl, found', total⟩ := gaps earlier other middle old
    exact ⟨still, found, _, start, rfl, found', total⟩
  · cases middle with
    | nil =>
        obtain ⟨same, rfl⟩ := List.cons.inj new
        obtain ⟨-, rfl⟩ := Event.reported.inj same
        rw [List.append_nil]
        exact ⟨positive, record, rest, before, rfl, next, sum⟩
    | cons head middle =>
        have tail := (List.cons.inj new).2
        have member : .reported ring other ∈ .flushed ring record :: rest := by
          rw [tail]
          exact List.mem_append_right _ List.mem_cons_self
        rcases List.mem_cons.mp member with same | inside
        · cases same
        · exact absurd inside (silent other)

/-- The report in front of a record covers what is missing before it. -/
theorem dropReport_cases {ring : RingId} {record : Record} {expected : UInt64}
    (behind : expected.toNat ≤ record.seqnum.toNat) :
    expected.toNat = record.seqnum.toNat ∧ Engine.dropReport ring record expected = [] ∨
    ∃ count, Engine.dropReport ring record expected = [.reported ring count] ∧
      1 ≤ count.toNat ∧ expected.toNat + count.toNat = record.seqnum.toNat := by
  have small := record.seqnum.isLt
  have number : (UInt64.ofNat record.seqnum.toNat).toNat = record.seqnum.toNat := by
    rw [UInt64.toNat_ofNat']
    exact Nat.mod_eq_of_lt (by omega)
  rw [Engine.dropReport]
  split
  · rename_i same
    exact .inl ⟨by rw [← same, number], rfl⟩
  · rename_i different
    have difference : (UInt64.ofNat record.seqnum.toNat - expected).toNat =
        record.seqnum.toNat - expected.toNat := by
      rw [UInt64.toNat_sub_of_le _ _ (UInt64.le_iff_toNat_le.mpr (by rw [number]; exact behind)),
        number]
    have apart : expected.toNat ≠ record.seqnum.toNat := by
      intro same
      exact different (UInt64.toNat_inj.mp (number.trans same.symm))
    exact .inr ⟨_, rfl, by omega, by omega⟩

/-- Flushing the next record of a ring behind the report of its gap. -/
theorem DropsReported.flush {ring : RingId} {trace notes tail before : List Event} {record : Record}
    {expected : UInt64} (drops : DropsReported ring trace) (gaps : GapsReported ring trace)
    (next : CommittedNext ring trace record before)
    (quiet : ∀ event ∈ notes, event.accounted ring = false)
    (silent : ∀ event ∈ tail, event.accounted ring = false)
    (expectedEq : expected.toNat = (flushedTo ring trace).length + reportedSum ring trace)
    (stamp : record.seqnum.toNat = (flushedTo ring trace).length + droppedCount ring before)
    (fewer : reportedSum ring trace ≤ droppedCount ring before) :
    DropsReported ring
      (trace ++ notes ++ Engine.dropReport ring record expected ++ .flushed ring record :: tail) ∧
    GapsReported ring
      (trace ++ notes ++ Engine.dropReport ring record expected ++ .flushed ring record :: tail) ∧
    reportedSum ring
      (trace ++ notes ++ Engine.dropReport ring record expected ++ .flushed ring record :: tail) =
        droppedCount ring before := by
  have noFlush : ∀ event ∈ tail, ∀ found, event ≠ .flushed ring found := by
    rintro event member found rfl
    simpa [Event.accounted] using silent _ member
  have noReport : ∀ count, .reported ring count ∉ tail := by
    intro count member
    simpa [Event.accounted] using silent _ member
  have noted : CommittedNext ring (trace ++ notes) record before ∧
      reportedSum ring (trace ++ notes) = reportedSum ring trace ∧
      GapsReported ring (trace ++ notes) ∧ DropsReported ring (trace ++ notes) := by
    obtain ⟨between, split, length⟩ := next
    refine ⟨⟨between ++ notes, ?_, ?_⟩, ?_, gaps.append ?_, AtEach.append_of drops ?_⟩
    · rw [split, List.append_assoc, List.cons_append]
    · rw [flushedTo_append, flushedTo_unaccounted quiet, List.append_nil, length]
    · rw [reportedSum_append, reportedSum_unaccounted quiet, Nat.add_zero]
    · intro count member
      simpa [Event.accounted] using quiet _ member
    · rintro event member _ found rfl
      simpa [Event.accounted] using quiet _ member
  obtain ⟨next, sum, gaps, drops⟩ := noted
  have zero : reportedSum ring (.flushed ring record :: tail) = 0 := by
    rw [← List.singleton_append, reportedSum_append, reportedSum_unaccounted silent]
    rfl
  have extend {start : List Event} (drops : DropsReported ring start)
      (isNext : CommittedNext ring start record before)
      (total : reportedSum ring start = droppedCount ring before) :
      DropsReported ring (start ++ .flushed ring record :: tail) := by
    rw [show start ++ .flushed ring record :: tail = start ++ [.flushed ring record] ++ tail by
      rw [List.append_assoc, List.singleton_append]]
    refine AtEach.append_of (AtEach.concat drops ?_) ?_
    · intro found same
      rw [← (Event.flushed.inj same).2]
      exact ⟨before, isNext, total⟩
    · exact fun event member _ found same => absurd same (noFlush event member found)
  rcases @dropReport_cases ring record expected (by omega) with ⟨same, none⟩ |
    ⟨count, report, positive, total⟩
  · rw [none, List.append_nil]
    refine ⟨extend drops next (by omega), gaps.append ?_, ?_⟩
    · intro count member
      rcases List.mem_cons.mp member with same | inside
      · cases same
      · exact noReport count inside
    · rw [reportedSum_append, zero, sum]
      omega
  · have counted : reportedSum ring [.reported ring count] = count.toNat := by
      simp [reportedSum]
    rw [report]
    refine ⟨extend ?_ ?_ ?_, ?_, ?_⟩
    · exact AtEach.concat drops fun found same => by cases same
    · obtain ⟨between, split, length⟩ := next
      refine ⟨between ++ [.reported ring count], ?_, ?_⟩
      · rw [split, List.append_assoc, List.cons_append]
      · rw [flushedTo_append, length]
        simp [flushedTo]
    · rw [reportedSum_append, counted, sum]
      omega
    · rw [List.append_assoc]
      exact gaps.flush positive next (by omega) noReport
    · rw [reportedSum_append, reportedSum_append, zero, counted, sum]
      omega

namespace Engine

variable {engine : Engine} {ring : RingId}

/-- The number the next record of a ring would have without any drops. -/
structure Counted (ring : RingId) (engine : Engine) : Prop where
  enabled : engine.tsoDisabled = false
  stamped : AtEach (fun before event => ∀ record, event = .committed ring record →
    record.seqnum.toNat = (committedTo ring before).length + droppedCount ring before)
      engine.shared.trace
  begun : (engine.obj ring).ring.seqnum.toNat = engine.shared.trace.count (.begun ring)
  writer : (engine.obj ring).writer = .idle ∧ (engine.obj ring).ring.seqnum.toNat =
      (engine.shared.committed ring).length + droppedCount ring engine.shared.trace ∨
    (engine.obj ring).writer = .filled ∧ (engine.obj ring).ring.seqnum.toNat =
      (engine.shared.committed ring).length + droppedCount ring engine.shared.trace + 1 ∧
    ((engine.obj ring).ring.slots (engine.obj ring).ring.tail).seqnum.toNat =
      (engine.shared.committed ring).length + droppedCount ring engine.shared.trace
  expected : ∀ (i : Nat) (entry : IndexEntry), engine.index[i]? = some entry →
    entry.ring = some ring →
    entry.seqnum.toNat = engine.handed ring + reportedSum ring engine.shared.trace
  unindexed : (∀ i, engine.ringAt i ≠ some ring) →
    engine.handed ring = 0 ∧ reportedSum ring engine.shared.trace = 0
  caughtUp : reportedSum ring engine.shared.trace = 0 ∨ ∃ before record between,
    engine.shared.trace = before ++ .committed ring record :: between ∧
    (committedTo ring before).length < engine.handed ring ∧
    reportedSum ring engine.shared.trace = droppedCount ring before
  flushes : DropsReported ring engine.shared.trace
  gaps : GapsReported ring engine.shared.trace

theorem Event.unaccounted_of_aside {event : Event} (aside : event.aside) :
    event.accounted ring = false := by
  cases event <;> trivial

theorem Event.unaccounted_of_elsewhere {event : Event} (byClient : event.byClient)
    (silent : event.postingTo ring = false) : event.accounted ring = false := by
  cases event <;> first | rfl | exact silent | cases byClient

theorem handed_byClient {shared : Shared} {events : List Event}
    (trace : shared.trace = engine.shared.trace ++ events)
    (byClient : ∀ event ∈ events, event.byClient) :
    handed { engine with shared } ring = engine.handed ring := by
  rw [Engine.handed, Shared.flushed, trace, flushedTo_append, flushedTo_byClient byClient,
    List.append_nil, Engine.handed, Shared.flushed]

/-- The expected numbers follow the rings through the index. -/
def SeqnumsKept (ring : RingId) (before after : Engine) : Prop :=
  ∀ (i : Nat) (entry : IndexEntry), after.index[i]? = some entry → entry.ring = some ring →
    (∃ (j : Nat) (old : IndexEntry), before.index[j]? = some old ∧ old.ring = some ring ∧
      entry.seqnum = old.seqnum) ∨
    (∀ j, before.ringAt j ≠ some ring) ∧ entry.seqnum = 0

theorem SeqnumsKept.same {after : Engine} (index : after.index = engine.index) :
    SeqnumsKept ring engine after :=
  fun i entry read owns => .inl ⟨i, entry, index ▸ read, owns, rfl⟩

theorem SeqnumsKept.set {after : Engine} {i : Nat} {entry updated : IndexEntry}
    (found : engine.index[i]? = some entry) (index : after.index = engine.index.set i updated)
    (same : updated.ring = some ring → entry.ring = some ring ∧ updated.seqnum = entry.seqnum) :
    SeqnumsKept ring engine after := by
  intro j other read owns
  rw [index, List.getElem?_set] at read
  split at read
  · split at read
    · obtain rfl := Option.some.inj read
      exact .inl ⟨i, entry, found, same owns⟩
    · cases read
  · exact .inl ⟨j, other, read, owns, rfl⟩

theorem SeqnumsKept.rebuilt (std : StdSort) (sound : engine.Sound) {pc : Pc} :
    SeqnumsKept ring engine ((engine.rebuildRingIndex std).goto pc) := by
  intro i entry read owns
  have member : entry ∈ (engine.rebuildRingIndex std).index := List.mem_of_getElem? read
  by_cases nowhere : ∀ j, engine.ringAt j ≠ some ring
  · refine .inr ⟨nowhere, ?_⟩
    obtain ⟨other, -, rfl⟩ := mem_rebuild.mp member
    obtain rfl : other = ring := Option.some.inj owns
    have absent : engine.lookup other = none := by
      refine List.find?_eq_none.mpr fun old inside same => ?_
      obtain ⟨j, oldRead⟩ := List.getElem?_of_mem inside
      exact nowhere j (ringAt_eq_some.mpr ⟨old, oldRead, beq_iff_eq.mp same⟩)
    simp only [newEntry, absent, Option.map_none, Option.getD_none]
  · obtain ⟨j, found⟩ : ∃ j, engine.ringAt j = some ring := by
      by_contra none
      exact nowhere fun j found => none ⟨j, found⟩
    obtain ⟨old, oldRead, oldOwns⟩ := ringAt_eq_some.mp found
    exact .inl ⟨j, old, oldRead, oldOwns, sound.registered.rebuild_seqnum
      (List.mem_of_getElem? oldRead) oldOwns member owns⟩

/-- In TSO mode a step flushes a record of the ring, with its number checked,
or does not bear on the accounts of the ring. -/
theorem EngineStep.unconcerned_or_flush {std : StdSort} {next : Engine}
    (shape : engine.EngineStep std next) (sound : engine.Sound)
    (enabled : engine.tsoDisabled = false) (ring : RingId) :
    (∃ events, next.shared.trace = engine.shared.trace ++ events ∧
      (∀ event ∈ events, event.accounted ring = false) ∧ SeqnumsKept ring engine next) ∨
    ∃ left caller te rest entry, engine.tso.entries = te :: rest ∧
      engine.index[te.tag]? = some entry ∧ entry.ring = some ring ∧
      next = (engine.popTo left caller rest).flushEntry te := by
  have still (trace : next.shared.trace = engine.shared.trace) (seqnums : SeqnumsKept ring engine next) :
      ∃ events, next.shared.trace = engine.shared.trace ++ events ∧
        (∀ event ∈ events, event.accounted ring = false) ∧ SeqnumsKept ring engine next :=
    ⟨[], trace.trans (List.append_nil _).symm, List.forall_mem_nil _, seqnums⟩
  cases shape with
  | unlocked | skipped | exhausted | flushing | walked | passedOver | emptied | released | untouched
  | settled | finished => exact .inl (still rfl (.same rfl))
  | polled | orphaned => exact .inl ⟨_, rfl, List.forall_mem_singleton.mpr rfl, .same rfl⟩
  | rebuilt => exact .inl ⟨_, rfl, List.forall_mem_singleton.mpr rfl, .rebuilt std sound⟩
  | reset _ found _ =>
      exact .inl ⟨_, rfl, List.forall_mem_singleton.mpr rfl,
        .set found rfl fun owns => ⟨owns, rfl⟩⟩
  | pushed _ here _ _ =>
      exact .inl ⟨_, rfl, List.forall_mem_singleton.mpr rfl,
        .set here.found rfl fun owns => ⟨owns, rfl⟩⟩
  | @filled i tsoTs entry owner passed limit _ here _ _ =>
      obtain ⟨events, trace, aside, -⟩ := markTsoFull_aside
        (engine.pushRecord i entry (engine.beyond entry owner passed)
          (engine.entryFor i tsoTs owner passed))
      have index : (Engine.markTsoFull (engine.pushRecord i entry (engine.beyond entry owner passed)
          (engine.entryFor i tsoTs owner passed))).index = engine.index.set i { entry with
            pit := engine.beyond entry owner passed } := by
        rw [markTsoFull_index]
        rfl
      refine .inl ⟨.tsoPush engine.tso.tail :: events, trace.trans ?_, ?_,
        .set here.found index fun owns => ⟨owns, rfl⟩⟩
      · change engine.shared.trace ++ [_] ++ events = _
        rw [List.append_assoc, List.singleton_append]
      · exact List.forall_mem_cons.mpr
          ⟨rfl, fun event member => Event.unaccounted_of_aside (aside event member)⟩
  | @popped left caller te rest entry owner _ entries found valid _ =>
      by_cases same : owner = ring
      · subst same
        exact .inr ⟨left, caller, te, rest, entry, entries, found, valid, rfl⟩
      · obtain ⟨notes, more, injected, moreInjected, trace⟩ :=
          @flushEntry_flushes (engine.popTo left caller rest) te entry owner found valid
        have other : (owner == ring) = false := beq_eq_false_iff_ne.mpr same
        have quiet {events : List Event} (minor : ∀ event ∈ events, event.isInjected) (event : Event)
            (member : event ∈ events) : event.accounted ring = false :=
          Event.unaccounted_of_aside (Event.aside_of_injected (minor event member))
        refine .inl ⟨_, trace.trans (by rw [List.append_assoc, List.append_assoc]; rfl), ?_, ?_⟩
        · simp only [List.mem_append, List.mem_cons, List.not_mem_nil, or_false]
          rintro event (note | report | (rfl | note) | rfl)
          · exact quiet injected event note
          · rw [dropReport] at report
            split at report
            · exact absurd report List.not_mem_nil
            · rw [List.mem_singleton.mp report]
              exact other
          · exact other
          · exact quiet moreInjected event note
          · split <;> rfl
        · refine .set found (flushEntry_index found valid) fun owns => ?_
          exact absurd (Option.some.inj (valid.symm.trans owns)) same
  | @returned _ caller =>
      cases caller with
      | full => exact .inl ⟨_, rfl, List.forall_mem_singleton.mpr rfl, .same rfl⟩
      | final => exact .inl (still rfl (.same rfl))
  | drained place => cases (sound.tracked.drains _ place).symm.trans enabled
  | drainCommitted place => cases (sound.tracked.drains _ place).symm.trans enabled
  | committed _ found _ _ _ => exact .inl (still rfl (.set found rfl fun owns => ⟨owns, rfl⟩))
  | reaped _ found valid =>
      rw [killOrphan_eq found valid]
      exact .inl ⟨_, rfl, List.forall_mem_singleton.mpr rfl,
        .set found rfl fun owns => by cases owns⟩

namespace Counted

theorem unconcerned {after : Engine} {events : List Event} (counted : engine.Counted ring)
    (trace : after.shared.trace = engine.shared.trace ++ events)
    (silent : ∀ event ∈ events, event.accounted ring = false)
    (mode : after.tsoDisabled = engine.tsoDisabled)
    (writer : (after.obj ring).writer = (engine.obj ring).writer)
    (seqnum : (after.obj ring).ring.seqnum = (engine.obj ring).ring.seqnum)
    (tail : (after.obj ring).ring.slots (after.obj ring).ring.tail =
      (engine.obj ring).ring.slots (engine.obj ring).ring.tail)
    (index : SeqnumsKept ring engine after)
    (kept : ∀ i, engine.ringAt i = some ring → ∃ j, after.ringAt j = some ring) :
    after.Counted ring := by
  have committed : after.shared.committed ring = engine.shared.committed ring := by
    rw [Shared.committed, trace, committedTo_append, committedTo_unaccounted silent,
      List.append_nil, Shared.committed]
  have handed : after.handed ring = engine.handed ring := by
    rw [Engine.handed, Shared.flushed, trace, flushedTo_append, flushedTo_unaccounted silent,
      List.append_nil, Engine.handed, Shared.flushed]
  have dropped : droppedCount ring after.shared.trace = droppedCount ring engine.shared.trace := by
    rw [trace, droppedCount_append, droppedCount_unaccounted silent, Nat.add_zero]
  have reported : reportedSum ring after.shared.trace = reportedSum ring engine.shared.trace := by
    rw [trace, reportedSum_append, reportedSum_unaccounted silent, Nat.add_zero]
  refine ⟨mode.trans counted.enabled, ?_, ?_, ?_, ?_, ?_, ?_, ?_, ?_⟩
  · rw [trace]
    refine counted.stamped.append_of fun event member _ record same => ?_
    have other := silent event member
    rw [same] at other
    simp [Event.accounted] at other
  · rw [seqnum, counted.begun, trace, List.count_append, begun_unaccounted silent, Nat.add_zero]
  · rw [writer, seqnum, tail, committed, dropped]
    exact counted.writer
  · intro i entry read owns
    rw [handed, reported]
    rcases index i entry read owns with ⟨j, old, oldRead, oldOwns, same⟩ | ⟨nowhere, zero⟩
    · rw [same]
      exact counted.expected j old oldRead oldOwns
    · rw [zero, (counted.unindexed nowhere).1, (counted.unindexed nowhere).2]
      rfl
  · intro nowhere
    rw [handed, reported]
    apply counted.unindexed
    intro i found
    obtain ⟨j, still⟩ := kept i found
    exact nowhere j still
  · rw [handed, reported]
    rcases counted.caughtUp with none | ⟨before, record, between, split, behind, sum⟩
    · exact .inl none
    · refine .inr ⟨before, record, between ++ events, ?_, behind, sum⟩
      rw [trace, split, List.append_assoc, List.cons_append]
  · rw [trace]
    refine AtEach.append_of counted.flushes fun event member _ record same => ?_
    have other := silent event member
    rw [same] at other
    simp [Event.accounted] at other
  · rw [trace]
    refine counted.gaps.append fun count member => ?_
    have other := silent _ member
    simp [Event.accounted] at other

theorem posted {shared : Shared} {event : Event} (counted : engine.Counted ring)
    (trace : shared.trace = engine.shared.trace ++ [event]) (byClient : event.byClient)
    (stamped : ∀ record, event = .committed ring record → record.seqnum.toNat =
      (engine.shared.committed ring).length + droppedCount ring engine.shared.trace)
    (begun : (shared.rings ring).ring.seqnum.toNat = shared.trace.count (.begun ring))
    (writer : (shared.rings ring).writer = .idle ∧ (shared.rings ring).ring.seqnum.toNat =
        (shared.committed ring).length + droppedCount ring shared.trace ∨
      (shared.rings ring).writer = .filled ∧ (shared.rings ring).ring.seqnum.toNat =
        (shared.committed ring).length + droppedCount ring shared.trace + 1 ∧
      ((shared.rings ring).ring.slots (shared.rings ring).ring.tail).seqnum.toNat =
        (shared.committed ring).length + droppedCount ring shared.trace) :
    Counted ring { engine with shared } := by
  have handed : handed { engine with shared } ring = engine.handed ring :=
    handed_byClient trace (List.forall_mem_singleton.mpr byClient)
  have reported : reportedSum ring shared.trace = reportedSum ring engine.shared.trace := by
    rw [trace, reportedSum_append]
    cases event <;> first | rfl | cases byClient
  refine ⟨counted.enabled, ?_, begun, writer, ?_, ?_, ?_, ?_, ?_⟩
  · change AtEach _ shared.trace
    rw [trace]
    exact counted.stamped.concat stamped
  · change ∀ (i : Nat) (entry : IndexEntry), _ → _ → _ = _ + reportedSum ring shared.trace
    rw [handed, reported]
    exact counted.expected
  · change _ → _ ∧ reportedSum ring shared.trace = 0
    rw [handed, reported]
    exact counted.unindexed
  · change reportedSum ring shared.trace = 0 ∨ ∃ before record between,
      shared.trace = _ ∧ _ ∧ reportedSum ring shared.trace = _
    rw [handed, reported, trace]
    rcases counted.caughtUp with none | ⟨before, record, between, split, behind, sum⟩
    · exact .inl none
    · refine .inr ⟨before, record, between ++ [event], ?_, behind, sum⟩
      rw [split, List.append_assoc, List.cons_append]
  · change DropsReported ring shared.trace
    rw [trace]
    refine AtEach.concat counted.flushes fun record same => ?_
    rw [same] at byClient
    cases byClient
  · change GapsReported ring shared.trace
    rw [trace]
    refine counted.gaps.append fun count member => ?_
    rw [← List.mem_singleton.mp member] at byClient
    cases byClient

theorem filled (counted : engine.Counted ring) (isFilled : (engine.obj ring).writer = .filled) :
    (engine.obj ring).writer = .filled ∧ (engine.obj ring).ring.seqnum.toNat =
      (engine.shared.committed ring).length + droppedCount ring engine.shared.trace + 1 ∧
    ((engine.obj ring).ring.slots (engine.obj ring).ring.tail).seqnum.toNat =
      (engine.shared.committed ring).length + droppedCount ring engine.shared.trace := by
  rcases counted.writer with ⟨idle, -⟩ | filled
  · cases idle.symm.trans isFilled
  · exact filled

theorem client {shared : Shared} (counted : engine.Counted ring)
    (only : OnlyPosted ring shared.trace)
    (writer : Shared.WriterStep ring engine.shared shared) :
    Counted ring { engine with shared } := by
  cases writer with
  | @same events ringEq writerEq trace elsewhere =>
      refine counted.unconcerned trace (fun event member => ?_) rfl writerEq
        (congrArg (·.seqnum) ringEq) ?_ (.same rfl) fun i found => ⟨i, found⟩
      · obtain ⟨byClient, silent⟩ := elsewhere event member
        exact Event.unaccounted_of_elsewhere byClient silent
      · change (shared.rings ring).ring.slots (shared.rings ring).ring.tail = _
        rw [ringEq]
        rfl
  | began record isIdle ringEq writerEq trace =>
      obtain ⟨-, idle⟩ : (engine.obj ring).writer = .idle ∧ (engine.obj ring).ring.seqnum.toNat =
          (engine.shared.committed ring).length + droppedCount ring engine.shared.trace := by
        rcases counted.writer with idle | ⟨filled, -⟩
        · exact idle
        · cases isIdle.symm.trans filled
      have begun := counted.begun
      have few := only.posts
      rw [trace, List.count_append, List.count_singleton_self] at few
      have committed : shared.committed ring = engine.shared.committed ring := by
        rw [Shared.committed, trace, committedTo_append]
        exact List.append_nil _
      have dropped : droppedCount ring shared.trace = droppedCount ring engine.shared.trace := by
        rw [trace, droppedCount_append]
        exact Nat.add_zero _
      have seqnum : ((engine.shared.rings ring).ring.seqnum + 1).toNat =
          (engine.obj ring).ring.seqnum.toNat + 1 := by
        rw [UInt64.toNat_add]
        exact Nat.mod_eq_of_lt (by change (engine.obj ring).ring.seqnum.toNat + 1 < 2 ^ 64; omega)
      refine counted.posted trace rfl (fun _ same => by cases same) ?_ (.inr ⟨writerEq, ?_, ?_⟩)
      · rw [ringEq, trace, List.count_append, List.count_singleton_self]
        change ((engine.shared.rings ring).ring.seqnum + 1).toNat = _
        omega
      · rw [ringEq, committed, dropped]
        change ((engine.shared.rings ring).ring.seqnum + 1).toNat = _
        omega
      · rw [ringEq, committed, dropped, ← idle]
        simp only [Ringbuf.store, Ringbuf.incSeqnum, if_true, BitVec.toNat_ofNat]
        exact Nat.mod_eq_of_lt (by change (engine.obj ring).ring.seqnum.toNat < 2 ^ 52; omega)
  | finished isFilled room ringEq writerEq trace =>
      obtain ⟨-, filled, stamp⟩ := counted.filled isFilled
      have committed : shared.committed ring = engine.shared.committed ring ++
          [(engine.obj ring).ring.slots (engine.obj ring).ring.tail] := by
        rw [Shared.committed, trace, committedTo_append]
        simp [committedTo, Shared.committed, obj]
      have dropped : droppedCount ring shared.trace = droppedCount ring engine.shared.trace := by
        rw [trace, droppedCount_append]
        exact Nat.add_zero _
      refine counted.posted trace rfl ?_ ?_ (.inl ⟨writerEq, ?_⟩)
      · intro record same
        rw [← (Event.committed.inj same).2]
        exact stamp
      · rw [ringEq, trace, List.count_append]
        exact counted.begun
      · rw [ringEq, committed, dropped, List.length_append, List.length_singleton]
        change (engine.obj ring).ring.seqnum.toNat = _
        omega
  | dropped isFilled ringEq writerEq trace =>
      obtain ⟨-, filled, -⟩ := counted.filled isFilled
      have committed : shared.committed ring = engine.shared.committed ring := by
        rw [Shared.committed, trace, committedTo_append]
        exact List.append_nil _
      have dropped : droppedCount ring shared.trace = droppedCount ring engine.shared.trace + 1 := by
        rw [trace, droppedCount_append, droppedCount, droppedCount, List.count_singleton_self]
      refine counted.posted trace rfl (fun _ same => by cases same) ?_ (.inl ⟨writerEq, ?_⟩)
      · rw [ringEq, trace, List.count_append]
        exact counted.begun
      · rw [ringEq, committed, dropped]
        change (engine.obj ring).ring.seqnum.toNat = _
        omega
  | reserved _ _ _ trace =>
      refine absurd ?_ only.unreserved
      rw [trace]
      exact List.mem_append_right _ List.mem_cons_self
  | gaveUp waiting | armed waiting | published waiting | refused waiting | observed waiting
  | left waiting =>
      rcases counted.writer with ⟨idle, -⟩ | ⟨filled, -⟩
      · cases idle.symm.trans waiting
      · cases filled.symm.trans waiting

/-- The next record of the ring was committed behind as many drops as its
number says, and no fewer than were reported. -/
theorem next_record (counted : engine.Counted ring)
    (more : engine.handed ring < (engine.shared.committed ring).length) :
    ∃ before, CommittedNext ring engine.shared.trace
        (engine.shared.committed ring)[engine.handed ring] before ∧
      (engine.shared.committed ring)[engine.handed ring].seqnum.toNat =
        engine.handed ring + droppedCount ring before ∧
      reportedSum ring engine.shared.trace ≤ droppedCount ring before := by
  obtain ⟨before, event, between, split, selected, length⟩ :=
    filterMap_split (List.getElem?_eq_getElem more)
  obtain rfl : event = .committed ring (engine.shared.committed ring)[engine.handed ring] := by
    cases event with
    | committed owner record =>
        simp only [Option.ite_none_right_eq_some, Option.some.injEq] at selected
        rw [selected.1, selected.2]
    | _ => cases selected
  have stamp := counted.stamped before _ between split _ rfl
  have commits : (committedTo ring before).length = engine.handed ring := length
  rw [commits] at stamp
  refine ⟨before, ⟨between, split, commits⟩, stamp, ?_⟩
  rcases counted.caughtUp with none | ⟨last, record, rest, split', behind, sum⟩
  · omega
  · rw [sum]
    -- The record flushed last was committed before this one.
    have first : last <+: engine.shared.trace := ⟨_, split'.symm⟩
    have second : before <+: engine.shared.trace := ⟨_, split.symm⟩
    rcases List.prefix_or_prefix_of_prefix first second with earlier | later
    · exact earlier.sublist.count_le _
    · obtain ⟨extra, rfl⟩ := later
      rw [committedTo_append, List.length_append] at behind
      omega

theorem flush_own {left : Nat} {caller : Caller} {te : TsoEntry} {rest : List TsoEntry}
    {entry : IndexEntry} (counted : engine.Counted ring) (sound : engine.Sound)
    (delivering : engine.Delivering ring) (entries : engine.tso.entries = te :: rest)
    (found : engine.index[te.tag]? = some entry) (valid : entry.ring = some ring)
    (tail : (((engine.popTo left caller rest).flushEntry te).obj ring).ring.slots
      (((engine.popTo left caller rest).flushEntry te).obj ring).ring.tail =
      (engine.obj ring).ring.slots (engine.obj ring).ring.tail) :
    ((engine.popTo left caller rest).flushEntry te).Counted ring := by
  have popped := @Delivering.popped engine ring left caller te rest entry delivering sound entries
    found valid
  obtain ⟨before, next, stamp, fewer⟩ := counted.next_record popped.more
  have expected := counted.expected te.tag entry found valid
  have stored := delivering.record_at (Nat.le_refl _) popped.more
  rw [← popped.slot] at stored
  obtain ⟨record, recordEq⟩ : ∃ record, record = (engine.obj ring).ring.slots te.slot := ⟨_, rfl⟩
  rw [← stored, ← recordEq] at next stamp
  have given : Handed (engine.popTo left caller rest)
    ((engine.popTo left caller rest).flushEntry te) ring te.slot := flushEntry_handed found valid
  have flushes : Flushes (engine.popTo left caller rest)
    ((engine.popTo left caller rest).flushEntry te) ring te.slot
      (dropReport ring ((engine.obj ring).ring.slots te.slot) entry.seqnum) :=
        flushEntry_flushes found valid
  obtain ⟨notes, more, injected, moreInjected, trace⟩ := flushes
  obtain ⟨after, afterEq⟩ : ∃ after, after = (engine.popTo left caller rest).flushEntry te :=
    ⟨_, rfl⟩
  rw [← afterEq] at given popped trace tail ⊢
  obtain ⟨last, lastEq⟩ : ∃ last, last = more ++ [if record.special then Event.acked ring te.slot
    else .output ring record] := ⟨_, rfl⟩
  have trace : after.shared.trace = engine.shared.trace ++ notes ++
      dropReport ring record entry.seqnum ++ .flushed ring record :: last := by
    rw [trace, lastEq, recordEq]
    rfl
  have quiet {events : List Event} (minor : ∀ event ∈ events, event.isInjected) (event : Event)
      (member : event ∈ events) : event.accounted ring = false :=
    Event.unaccounted_of_aside (Event.aside_of_injected (minor event member))
  have silent : ∀ event ∈ last, event.accounted ring = false := by
    rw [lastEq]
    intro event member
    rcases List.mem_append.mp member with note | final
    · exact quiet moreInjected event note
    · rw [List.mem_singleton.mp final]
      split <;> rfl
  obtain ⟨drops, gaps, sum⟩ := counted.flushes.flush counted.gaps next (quiet injected) silent
    expected stamp fewer
  rw [← trace] at drops gaps sum
  have objs := given.objs ring
  obtain ⟨events, grown, byEngine⟩ := given.byEngine
  have absent {event : Event} (client : event.byClient) : events.count event = 0 := by
    apply List.count_eq_zero_of_not_mem
    intro member
    rw [byEngine event member] at client
    cases client
  have grown : after.shared.trace = engine.shared.trace ++ events := grown
  have dropped : droppedCount ring after.shared.trace = droppedCount ring engine.shared.trace := by
    rw [grown, droppedCount_append, droppedCount, droppedCount, absent rfl, Nat.add_zero]
  have number : (UInt64.ofNat ((engine.obj ring).ring.slots te.slot).seqnum.toNat + 1).toNat =
      record.seqnum.toNat + 1 := by
    have small := record.seqnum.isLt
    rw [← recordEq, UInt64.toNat_add, UInt64.toNat_ofNat', UInt64.toNat_one]
    omega
  refine ⟨?_, ?_, ?_, ?_, ?_, ?_, .inr ?_, drops, gaps⟩
  · exact given.tsoDisabled.trans counted.enabled
  · rw [grown]
    refine counted.stamped.append_of fun event member _ found same => ?_
    have engineEvent := byEngine event member
    rw [same] at engineEvent
    cases engineEvent
  · rw [objs.seqnum, grown, List.count_append, absent rfl, Nat.add_zero]
    exact counted.begun
  · rw [objs.writer, objs.seqnum, popped.committed, dropped, tail]
    exact counted.writer
  · intro j other read owns
    rw [(popped.sole j other read owns).2, popped.handed, sum]
    dsimp only
    omega
  · rw [popped.ringAt]
    exact fun nowhere => absurd popped.indexed (nowhere te.tag)
  · obtain ⟨between, split, length⟩ := next
    refine ⟨before, record, between ++ events, ?_, ?_, sum⟩
    · rw [grown, split, List.append_assoc, List.cons_append]
    · rw [length, popped.handed]
      exact Nat.lt_succ_self _

theorem step {std : StdSort} {next : Engine} (counted : engine.Counted ring) (sound : engine.Sound)
    (delivering : engine.Delivering ring) (only : OnlyPosted ring next.shared.trace)
    (shape : engine.EngineStep std next) : next.Counted ring := by
  have objs := shape.objs ring
  have tail := shape.tail_kept sound.tracked ring
  rcases shape.unconcerned_or_flush sound counted.enabled ring with
    ⟨events, trace, silent, seqnums⟩ | ⟨left, caller, te, rest, entry, entries, found, valid, rfl⟩
  · refine counted.unconcerned trace silent shape.mode objs.writer objs.seqnum tail seqnums ?_
    intro i found
    rcases shape.indexed sound found with still | ⟨-, reaped⟩
    · exact still
    · exact absurd reaped only.unreaped
  · exact counted.flush_own sound delivering entries found valid tail

end Counted

theorem create_counted (capacity : UInt32) (timesource : UInt64) {rings : RingId → RingObj}
    (fresh : ∀ ring, (rings ring).Fresh) (ring : RingId) :
    (create capacity false timesource rings).Counted ring where
  enabled := rfl
  stamped := atEach_nil _
  begun := by
    obtain ⟨mask, slots, -, made⟩ := (fresh ring).made
    change (rings ring).ring.seqnum.toNat = 0
    rw [made]
    rfl
  writer := by
    obtain ⟨mask, slots, -, made⟩ := (fresh ring).made
    refine .inl ⟨(fresh ring).writer, ?_⟩
    change (rings ring).ring.seqnum.toNat = 0
    rw [made]
    rfl
  expected _ _ read := by cases read
  unindexed _ := ⟨rfl, rfl⟩
  caughtUp := .inl rfl
  flushes := atEach_nil _
  gaps _ _ _ split :=
    absurd split.symm (List.append_ne_nil_of_right_ne_nil _ (List.cons_ne_nil _ _))

theorem OnlyPosted.of_append {trace events : List Event} (only : OnlyPosted ring (trace ++ events)) :
    OnlyPosted ring trace := by
  refine ⟨?_, fun member => only.unreserved (List.mem_append_left _ member),
    fun member => only.unreaped (List.mem_append_left _ member)⟩
  have posts := only.posts
  rw [List.count_append] at posts
  omega

/-- A ring with room for one record: two posts are dropped behind the first
one, and a fourth finds room again. -/
def gapRun : List Action :=
  let post (timestamp : UInt64) : List Action :=
    [.client (.begin 0 { Post.zeroRecord 256 with timestamp }), .client (.finish 0)]
  [.client (.addNamed 0), .client (.markDirty 0)] ++ post 5 ++ post 6 ++ post 7 ++
    List.replicate 11 (.engine true) ++ post 8 ++ List.replicate 11 (.engine true)

end Engine

end Hogl.Polling
