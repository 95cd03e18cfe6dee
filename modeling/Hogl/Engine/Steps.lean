import Hogl.Engine.Clients

namespace Hogl.Polling

open Hogl.Data Hogl.Ring

/-! # What an engine step can do -/

/-- The events that accompany a call of `flush_record`. -/
def Event.minor : Event → Bool
  | .reported _ _ | .acked _ _ | .output _ _ | .injected _ _ _ _ _ _ => true
  | _ => false

def Event.isInjected : Event → Bool
  | .injected _ _ _ _ _ _ => true
  | _ => false

theorem Event.minor_of_injected {event : Event} (injected : event.isInjected) : event.minor := by
  cases event <;> trivial

theorem Event.byClient_of_minor {event : Event} (minor : event.minor) : event.byClient = false := by
  cases event <;> simp [Event.minor, Event.byClient] at minor ⊢

theorem flushedTo_minor {events : List Event} (minor : ∀ event ∈ events, event.minor)
    (ring : RingId) : flushedTo ring events = [] := by
  apply flushedTo_silent
  rintro event member record rfl
  cases minor _ member

theorem committedTo_minor {events : List Event} (minor : ∀ event ∈ events, event.minor)
    (ring : RingId) : committedTo ring events = [] :=
  committedTo_byEngine (fun event member => Event.byClient_of_minor (minor event member)) ring

/-- What no engine step changes in a ring object. -/
structure SameObj (before after : RingObj) : Prop where
  name : after.name = before.name
  prio : after.prio = before.prio
  immortal : after.immortal = before.immortal
  clients : after.clients = before.clients
  writer : after.writer = before.writer
  capacity : after.ring.capacity = before.ring.capacity
  blocking : after.ring.blocking = before.ring.blocking
  tail : after.ring.tail = before.ring.tail
  seqnum : after.ring.seqnum = before.ring.seqnum
  dropcnt : after.ring.dropcnt = before.ring.dropcnt

theorem SameObj.refl (obj : RingObj) : SameObj obj obj :=
  ⟨rfl, rfl, rfl, rfl, rfl, rfl, rfl, rfl, rfl, rfl⟩

theorem SameObj.trans {first second third : RingObj} (left : SameObj first second)
    (right : SameObj second third) : SameObj first third :=
  ⟨right.name.trans left.name, right.prio.trans left.prio, right.immortal.trans left.immortal,
    right.clients.trans left.clients, right.writer.trans left.writer,
    right.capacity.trans left.capacity, right.blocking.trans left.blocking,
    right.tail.trans left.tail, right.seqnum.trans left.seqnum, right.dropcnt.trans left.dropcnt⟩

namespace Engine

variable {engine : Engine}

@[simp] theorem obj_log (event : Event) (ring : RingId) :
    (engine.log event).obj ring = engine.obj ring := rfl

@[simp] theorem obj_goto (pc : Pc) (ring : RingId) :
    (engine.goto pc).obj ring = engine.obj ring := rfl

@[simp] theorem obj_setEntry (i : Nat) (entry : IndexEntry) (ring : RingId) :
    (engine.setEntry i entry).obj ring = engine.obj ring := rfl

theorem obj_setRing (target ring : RingId) (obj : RingObj) :
    (engine.setRing target obj).obj ring = if ring = target then obj else engine.obj ring :=
  Shared.setRing_rings target ring obj

theorem withRing_eq {i : Nat} {entry : IndexEntry} {ring : RingId}
    (found : engine.index[i]? = some entry) (valid : entry.ring = some ring)
    (body : IndexEntry → RingId → Engine) : engine.withRing i body = body entry ring := by
  simp only [withRing, found, valid]

theorem scanRing_eq (std : StdSort) {i : Nat} {entry : IndexEntry} {ring : RingId}
    (found : engine.index[i]? = some entry) (valid : entry.ring = some ring) :
    engine.scanRing std i =
      ((engine.setEntry i { entry with pit := .reset (engine.obj ring).ring }).log
        (.snapshot ring)).goto (if engine.tsoDisabled then .drain i else .walk i 0) := by
  rw [scanRing, found]
  dsimp only
  split
  · rename_i invalid
    rw [valid] at invalid
    cases invalid
  · rename_i other same
    obtain rfl : ring = other := Option.some.inj (valid.symm.trans same)
    rfl

theorem markTsoFull_cases (engine : Engine) : engine.markTsoFull = engine ∨
    (∃ event, event.isInjected ∧ engine.markTsoFull = engine.log event) ∨
    engine.markTsoFull = engine.fault := by
  simp only [markTsoFull]
  split
  · split
    · simp only [withRing]
      split
      · split
        · exact .inr (.inl ⟨_, rfl, rfl⟩)
        · exact .inr (.inr rfl)
      · exact .inr (.inr rfl)
    · exact .inr (.inr rfl)
  · exact .inl rfl

theorem markTsoFull_rings (engine : Engine) :
    engine.markTsoFull.shared.rings = engine.shared.rings := by
  rcases engine.markTsoFull_cases with same | ⟨event, -, same⟩ | same <;> rw [same] <;> rfl

theorem markTsoFull_index (engine : Engine) : engine.markTsoFull.index = engine.index := by
  rcases engine.markTsoFull_cases with same | ⟨event, -, same⟩ | same <;> rw [same] <;> rfl

theorem markTsoFull_tsoDisabled (engine : Engine) :
    engine.markTsoFull.tsoDisabled = engine.tsoDisabled := by
  rcases engine.markTsoFull_cases with same | ⟨event, -, same⟩ | same <;> rw [same] <;> rfl

theorem flushTso_entries (std : StdSort) :
    (engine.flushTso std).tso.entries.Perm engine.tso.entries := by
  simp only [flushTso]
  split
  · exact .refl _
  · exact std.perm Tsobuf.less engine.tso.entries

/-- `after` handed the record in `slot` of `ring` to `flush_record`. -/
structure Handed (before after : Engine) (ring : RingId) (slot : UInt32) : Prop where
  trace : ∃ reports rest,
    after.shared.trace = before.shared.trace ++ reports ++
      .flushed ring ((before.obj ring).ring.slots slot) :: rest ∧
    (∀ event ∈ reports, event.minor) ∧ ∀ event ∈ rest, event.minor
  ringMap : after.shared.ringMap = before.shared.ringMap
  dirty : after.shared.dirty = before.shared.dirty
  unmarked : after.shared.unmarked = before.shared.unmarked
  tsoDisabled : after.tsoDisabled = before.tsoDisabled
  tso : after.tso = before.tso
  leftover : after.leftover = before.leftover
  pc : after.pc = before.pc
  objs : ∀ other, SameObj (before.obj other) (after.obj other)
  refcnts : ∀ other, (after.obj other).refcnt = (before.obj other).refcnt
  others : ∀ other, other ≠ ring → (after.obj other).ring = (before.obj other).ring
  stored : ∃ value, (after.obj ring).ring = (before.obj ring).ring.store slot value ∧
    (value = (before.obj ring).ring.slots slot ∨ value = ((before.obj ring).ring.slots slot).ack)

/-- `after` differs by minor events, by timesources and in the statistics. -/
structure Accompanied (before after : Engine) : Prop where
  trace : ∃ events, after.shared.trace = before.shared.trace ++ events ∧
    ∀ event ∈ events, event.minor
  ringMap : after.shared.ringMap = before.shared.ringMap
  dirty : after.shared.dirty = before.shared.dirty
  unmarked : after.shared.unmarked = before.shared.unmarked
  tsoDisabled : after.tsoDisabled = before.tsoDisabled
  index : after.index = before.index
  tso : after.tso = before.tso
  leftover : after.leftover = before.leftover
  pc : after.pc = before.pc
  objs : ∀ other, SameObj (before.obj other) (after.obj other)
  refcnts : ∀ other, (after.obj other).refcnt = (before.obj other).refcnt
  rings : ∀ other, (after.obj other).ring = (before.obj other).ring

theorem Accompanied.refl (engine : Engine) : Accompanied engine engine :=
  ⟨⟨[], by rw [List.append_nil], List.forall_mem_nil _⟩, rfl, rfl, rfl, rfl, rfl, rfl, rfl, rfl,
    fun _ => .refl _, fun _ => rfl, fun _ => rfl⟩

theorem Accompanied.trans {first second third : Engine} (left : Accompanied first second)
    (right : Accompanied second third) : Accompanied first third := by
  obtain ⟨events, trace, minor⟩ := left.trace
  obtain ⟨more, moreTrace, moreMinor⟩ := right.trace
  refine ⟨⟨events ++ more, ?_, ?_⟩, right.ringMap.trans left.ringMap, right.dirty.trans left.dirty,
    right.unmarked.trans left.unmarked, right.tsoDisabled.trans left.tsoDisabled,
    right.index.trans left.index, right.tso.trans left.tso, right.leftover.trans left.leftover,
    right.pc.trans left.pc, fun other => (left.objs other).trans (right.objs other),
    fun other => (right.refcnts other).trans (left.refcnts other),
    fun other => (right.rings other).trans (left.rings other)⟩
  · rw [moreTrace, trace, List.append_assoc]
  · intro event member
    exact (List.mem_append.mp member).elim (minor event) (moreMinor event)

theorem Accompanied.stats {before after : Engine} (accompanied : Accompanied before after)
    (stats : Stats) : Accompanied before { after with stats } :=
  ⟨accompanied.trace, accompanied.ringMap, accompanied.dirty, accompanied.unmarked,
    accompanied.tsoDisabled, accompanied.index, accompanied.tso, accompanied.leftover,
    accompanied.pc, accompanied.objs, accompanied.refcnts, accompanied.rings⟩

theorem log_accompanied {event : Event} (minor : event.minor) :
    Accompanied engine (engine.log event) :=
  ⟨⟨[event], rfl, List.forall_mem_singleton.mpr minor⟩, rfl, rfl, rfl, rfl, rfl, rfl, rfl, rfl,
    fun _ => .refl _, fun _ => rfl, fun _ => rfl⟩

theorem switchTimesource_accompanied (ring : RingId) (record : Record) :
    Accompanied engine (engine.switchTimesource ring record) := by
  have obj (other : RingId) : (engine.switchTimesource ring record).obj other =
      if other ∈ engine.shared.ringMap
        then { engine.obj other with timesource := record.getArgVal64 1 } else engine.obj other := rfl
  refine ⟨⟨_, rfl, List.forall_mem_singleton.mpr rfl⟩, rfl, rfl, rfl, rfl, rfl, rfl, rfl, rfl,
    fun other => ?_, fun other => ?_, fun other => ?_⟩ <;> rw [obj] <;> split
  · exact ⟨rfl, rfl, rfl, rfl, rfl, rfl, rfl, rfl, rfl, rfl⟩
  · exact .refl _
  all_goals rfl

theorem reportDrops_accompanied (ring : RingId) (record : Record) (expected : UInt64) :
    Accompanied engine (engine.reportDrops ring record expected) := by
  simp only [reportDrops]
  split
  · exact .refl engine
  · apply Accompanied.stats
    split
    · exact (log_accompanied rfl).trans (log_accompanied rfl)
    · exact log_accompanied rfl

theorem flushRecord_index (ring : RingId) (slot : UInt32) :
    (engine.flushRecord ring slot).index = engine.index := by
  simp only [flushRecord]
  split
  · split <;> rfl
  · rfl

/-- The acknowledgement is the only store into a ring. -/
theorem ackSlot_handed {switched : Engine} {ring : RingId} {slot : UInt32}
    (accompanied : Accompanied
      (engine.log (.flushed ring ((engine.obj ring).ring.slots slot))) switched) :
    Handed engine (switched.ackSlot ring slot) ring slot := by
  have acked (other : RingId) : (switched.ackSlot ring slot).obj other =
      if other = ring then { switched.obj ring with
        ring := (switched.obj ring).ring.store slot ((switched.obj ring).ring.slots slot).ack }
      else switched.obj other := obj_setRing ring other _
  obtain ⟨events, trace, minor⟩ := accompanied.trace
  refine ⟨⟨[], events ++ [.acked ring slot], ?_, List.forall_mem_nil _, ?_⟩, accompanied.ringMap,
    accompanied.dirty, accompanied.unmarked, accompanied.tsoDisabled, accompanied.tso,
    accompanied.leftover, accompanied.pc, fun other => ?_, fun other => ?_,
    fun other different => ?_, ?_⟩
  · change switched.shared.trace ++ _ = _
    simp [trace, log]
  · intro event member
    rcases List.mem_append.mp member with old | new
    · exact minor event old
    · rw [List.mem_singleton.mp new]
      rfl
  · rw [acked]
    split
    · rename_i equal
      subst equal
      exact (accompanied.objs other).trans ⟨rfl, rfl, rfl, rfl, rfl, rfl, rfl, rfl, rfl, rfl⟩
    · exact accompanied.objs other
  · rw [acked]
    split
    · rename_i equal
      subst equal
      exact accompanied.refcnts other
    · exact accompanied.refcnts other
  · rw [acked, if_neg different, accompanied.rings other]
    rfl
  · refine ⟨((engine.obj ring).ring.slots slot).ack, ?_, .inr rfl⟩
    rw [acked, if_pos rfl, accompanied.rings ring]
    rfl

theorem flushRecord_handed (engine : Engine) (ring : RingId) (slot : UInt32) :
    Handed engine (engine.flushRecord ring slot) ring slot := by
  have counted {processed : Engine} {recsOut : UInt64} (handed : Handed engine processed ring slot) :
      Handed engine { processed with stats.recsOut := recsOut } ring slot :=
    ⟨handed.trace, handed.ringMap, handed.dirty, handed.unmarked, handed.tsoDisabled, handed.tso,
      handed.leftover, handed.pc, handed.objs, handed.refcnts, handed.others, handed.stored⟩
  simp only [flushRecord]
  apply counted
  split
  · apply ackSlot_handed
    split
    · exact switchTimesource_accompanied ring _
    · exact .refl _
  · refine ⟨⟨[], [.output ring ((engine.obj ring).ring.slots slot)], ?_, List.forall_mem_nil _, List.forall_mem_singleton.mpr rfl⟩,
      rfl, rfl, rfl, rfl, rfl, rfl, rfl, fun _ => .refl _, fun _ => rfl, fun _ _ => rfl,
      ⟨(engine.obj ring).ring.slots slot, ?_, .inl rfl⟩⟩
    · change engine.shared.trace ++ [_] ++ [_] = _
      simp only [List.append_assoc, List.append_nil, List.cons_append, List.nil_append]
    · rw [Shared.store_self]
      rfl

theorem Handed.behind {first second third : Engine} {ring : RingId} {slot : UInt32} {i : Nat}
    {entry : IndexEntry} (accompanied : Accompanied first second)
    (handed : Handed (second.setEntry i entry) third ring slot) : Handed first third ring slot := by
  obtain ⟨events, trace, minor⟩ := accompanied.trace
  obtain ⟨reports, rest, handedTrace, reportsMinor, restMinor⟩ := handed.trace
  have record : ((second.setEntry i entry).obj ring).ring.slots slot =
      (first.obj ring).ring.slots slot := congrArg (·.slots slot) (accompanied.rings ring)
  obtain ⟨value, stored, written⟩ := handed.stored
  refine ⟨⟨events ++ reports, rest, ?_, ?_, restMinor⟩, handed.ringMap.trans accompanied.ringMap,
    handed.dirty.trans accompanied.dirty, handed.unmarked.trans accompanied.unmarked,
    handed.tsoDisabled.trans accompanied.tsoDisabled, handed.tso.trans accompanied.tso,
    handed.leftover.trans accompanied.leftover, handed.pc.trans accompanied.pc,
    fun other => (accompanied.objs other).trans (handed.objs other),
    fun other => (handed.refcnts other).trans (accompanied.refcnts other),
    fun other different => (handed.others other different).trans (accompanied.rings other),
    ⟨value, ?_, ?_⟩⟩
  · rw [handedTrace, record]
    change second.shared.trace ++ reports ++ _ = _
    rw [trace, List.append_assoc first.shared.trace]
  · intro event member
    exact (List.mem_append.mp member).elim (minor event) (reportsMinor event)
  · rw [stored, obj_setEntry, accompanied.rings ring]
  · rwa [record] at written

theorem flushEntry_handed {te : TsoEntry} {entry : IndexEntry} {ring : RingId}
    (found : engine.index[te.tag]? = some entry) (valid : entry.ring = some ring) :
    Handed engine (engine.flushEntry te) ring te.slot := by
  rw [flushEntry, withRing_eq found valid]
  exact .behind (reportDrops_accompanied ring _ entry.seqnum) (flushRecord_handed _ ring te.slot)

theorem flushEntry_index {te : TsoEntry} {entry : IndexEntry} {ring : RingId}
    (found : engine.index[te.tag]? = some entry) (valid : entry.ring = some ring) :
    (engine.flushEntry te).index = engine.index.set te.tag { entry with
      lastrec := some te.slot
      seqnum := UInt64.ofNat ((engine.obj ring).ring.slots te.slot).seqnum.toNat + 1 } := by
  rw [flushEntry, withRing_eq found valid]
  simp only [flushRecord_index]
  rw [setEntry, (reportDrops_accompanied ring _ entry.seqnum).index]

/-- Handing a record over commits nothing and flushes that record. -/
theorem Handed.committed {before after : Engine} {ring : RingId} {slot : UInt32}
    (handed : Handed before after ring slot) (other : RingId) :
    after.shared.committed other = before.shared.committed other := by
  obtain ⟨reports, rest, trace, reportsMinor, restMinor⟩ := handed.trace
  have last : committedTo other (.flushed ring ((before.obj ring).ring.slots slot) :: rest) = [] :=
    committedTo_minor restMinor other
  rw [Shared.committed, trace, committedTo_append, committedTo_append, last,
    committedTo_minor reportsMinor, List.append_nil, List.append_nil, Shared.committed]

theorem Handed.flushed {before after : Engine} {ring : RingId} {slot : UInt32}
    (handed : Handed before after ring slot) :
    after.shared.flushed ring =
      before.shared.flushed ring ++ [(before.obj ring).ring.slots slot] := by
  obtain ⟨reports, rest, trace, reportsMinor, restMinor⟩ := handed.trace
  have last : flushedTo ring (.flushed ring ((before.obj ring).ring.slots slot) :: rest) =
      [(before.obj ring).ring.slots slot] := by
    rw [← List.singleton_append, flushedTo_append, flushedTo_minor restMinor]
    simp [flushedTo]
  rw [Shared.flushed, trace, flushedTo_append, flushedTo_append, last,
    flushedTo_minor reportsMinor, List.append_nil, Shared.flushed]

theorem Handed.flushed_other {before after : Engine} {ring other : RingId} {slot : UInt32}
    (handed : Handed before after ring slot) (different : other ≠ ring) :
    after.shared.flushed other = before.shared.flushed other := by
  obtain ⟨reports, rest, trace, reportsMinor, restMinor⟩ := handed.trace
  have last : flushedTo other (.flushed ring ((before.obj ring).ring.slots slot) :: rest) = [] := by
    rw [← List.singleton_append, flushedTo_append, flushedTo_minor restMinor]
    simp [flushedTo, different.symm]
  rw [Shared.flushed, trace, flushedTo_append, flushedTo_append, last,
    flushedTo_minor reportsMinor, List.append_nil, List.append_nil, Shared.flushed]

/-! ## The events of one call of `flush_record` -/

/-- What the drop detection adds to `recs_dropped`. -/
def dropReport (ring : RingId) (record : Record) (expected : UInt64) : List Event :=
  if UInt64.ofNat record.seqnum.toNat = expected then []
  else [.reported ring (UInt64.ofNat record.seqnum.toNat - expected)]

theorem reportDrops_trace (ring : RingId) (record : Record) (expected : UInt64) :
    ∃ notes, (∀ event ∈ notes, event.isInjected) ∧
      (engine.reportDrops ring record expected).shared.trace =
        engine.shared.trace ++ notes ++ dropReport ring record expected := by
  simp only [reportDrops, dropReport]
  split
  · exact ⟨[], List.forall_mem_nil _, by simp⟩
  · split
    · exact ⟨[_], List.forall_mem_singleton.mpr rfl, rfl⟩
    · exact ⟨[], List.forall_mem_nil _, by simp [log]⟩

/-- `after` called `flush_record` for the record in `slot` of `ring`, behind
the events in `report`. -/
def Flushes (before after : Engine) (ring : RingId) (slot : UInt32) (report : List Event) : Prop :=
  ∃ notes more, (∀ event ∈ notes, event.isInjected) ∧ (∀ event ∈ more, event.isInjected) ∧
    after.shared.trace = before.shared.trace ++ notes ++ report ++
      (.flushed ring ((before.obj ring).ring.slots slot) :: more ++
        [if ((before.obj ring).ring.slots slot).special then .acked ring slot
          else .output ring ((before.obj ring).ring.slots slot)])

theorem flushRecord_trace (engine : Engine) (ring : RingId) (slot : UInt32) :
    ∃ more, (∀ event ∈ more, event.isInjected) ∧
      (engine.flushRecord ring slot).shared.trace = engine.shared.trace ++
        (.flushed ring ((engine.obj ring).ring.slots slot) :: more ++
          [if ((engine.obj ring).ring.slots slot).special then .acked ring slot
            else .output ring ((engine.obj ring).ring.slots slot)]) := by
  simp only [flushRecord]
  split
  · split
    · refine ⟨[.injected (engine.obj ring).name ((engine.obj ring).ring.slots slot).timestamp
        (UInt64.ofNat ((engine.obj ring).ring.slots slot).seqnum.toNat) .info
        "switching timesource from %s to %s" [.timesourceName engine.shared.timesource,
          .timesourceName (((engine.obj ring).ring.slots slot).getArgVal64 1)]],
        List.forall_mem_singleton.mpr rfl, ?_⟩
      simp only [ackSlot, switchTimesource, injectRecord, log, setRing, Shared.log_trace,
        Shared.setRing_trace, List.append_assoc, List.cons_append, List.nil_append]
      rfl
    · exact ⟨[], List.forall_mem_nil _, by simp [ackSlot, log, setRing]⟩
  · exact ⟨[], List.forall_mem_nil _, by simp [log]⟩

theorem flushEntry_flushes {te : TsoEntry} {entry : IndexEntry} {ring : RingId}
    (found : engine.index[te.tag]? = some entry) (valid : entry.ring = some ring) :
    Flushes engine (engine.flushEntry te) ring te.slot
      (dropReport ring ((engine.obj ring).ring.slots te.slot) entry.seqnum) := by
  rw [flushEntry, withRing_eq found valid]
  have rings := (@reportDrops_accompanied engine ring
    ((engine.obj ring).ring.slots te.slot) entry.seqnum).rings ring
  obtain ⟨notes, injected, trace⟩ := @reportDrops_trace engine ring
    ((engine.obj ring).ring.slots te.slot) entry.seqnum
  obtain ⟨more, moreInjected, flushed⟩ := flushRecord_trace
    ((engine.reportDrops ring ((engine.obj ring).ring.slots te.slot) entry.seqnum).setEntry te.tag
      { entry with
        lastrec := some te.slot
        seqnum := UInt64.ofNat ((engine.obj ring).ring.slots te.slot).seqnum.toNat + 1 })
    ring te.slot
  refine ⟨notes, more, injected, moreInjected, flushed.trans ?_⟩
  rw [obj_setEntry, rings]
  change (engine.reportDrops ring ((engine.obj ring).ring.slots te.slot)
    entry.seqnum).shared.trace ++ _ = _
  rw [trace]

end Engine

end Hogl.Polling
