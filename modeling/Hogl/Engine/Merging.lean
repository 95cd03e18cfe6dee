import Hogl.Data.MergeRounds
import Hogl.Engine.Capacity
import Hogl.Engine.ExactlyOnce

namespace Hogl.Polling

open Hogl.Data Hogl.Ring

/-! # The TSO engine as a merge

`process_rings_tso` merges the rings of its index by time: the records are
the items, a poll is a round, and the TSO buffer is the buffer.
-/

/-- The records of all rings handed to `flush_record`, oldest first. -/
def flushedAll (trace : List Event) : List Record :=
  trace.filterMap fun
    | .flushed _ record => some record
    | _ => none

/-- The key of a record. -/
def timeOf (record : Record) : Nat := record.timestamp.toNat

/-- The timestamps of a ring are positive and increase strictly. -/
structure Rising (records : List Record) : Prop where
  positive : ∀ record ∈ records, 0 < record.timestamp
  increasing : records.Pairwise fun first second => first.timestamp < second.timestamp

instance (records : List Record) : Decidable (Rising records) :=
  decidable_of_iff ((∀ record ∈ records, 0 < record.timestamp) ∧
    records.Pairwise fun first second => first.timestamp < second.timestamp)
    ⟨fun both => ⟨both.1, both.2⟩, fun rising => ⟨rising.positive, rising.increasing⟩⟩

theorem adjust_of_lt {raw tsoTs : UInt64} (later : tsoTs < raw) : Engine.adjust raw tsoTs = raw :=
  if_neg (UInt64.not_le.mpr later)

theorem climbs_of_rising {part : List Record} {tsoTs : UInt64}
    (later : ∀ record ∈ part, tsoTs < record.timestamp)
    (increasing : part.Pairwise fun first second => first.timestamp < second.timestamp) :
    Climbs tsoTs part := by
  induction part generalizing tsoTs with
  | nil => trivial
  | cons record rest ih =>
      obtain ⟨here, behind⟩ := List.pairwise_cons.mp increasing
      have first := later record List.mem_cons_self
      rw [Climbs, adjust_of_lt first]
      exact ⟨first, ih here behind⟩

theorem Rising.climbing {records : List Record} (rising : Rising records) (mask : UInt32) :
    Climbing mask records := fun _ inside _ =>
  climbs_of_rising (fun record member => rising.positive record (inside.subset member))
    (rising.increasing.sublist inside.sublist)

theorem Rising.of_prefix {early late : List Record} (rising : Rising late) (earlier : early <+: late) :
    Rising early :=
  ⟨fun record member => rising.positive record (earlier.subset member),
    rising.increasing.sublist earlier.sublist⟩

theorem Rising.keys {records : List Record} (rising : Rising records) :
    (records.map timeOf).Pairwise (· ≤ ·) :=
  List.pairwise_map.mpr (rising.increasing.imp fun less => Nat.le_of_lt (UInt64.lt_iff_toNat_lt.mp less))

namespace Engine

variable {engine next : Engine} {merge after : Merge RingId Nat} {std : StdSort}

/-- The rings of the index. -/
def Lists (rings : Finset RingId) (engine : Engine) : Prop :=
  ∀ ring, ring ∈ rings ↔ ∃ i, engine.ringAt i = some ring

theorem lists_iff {rings : Finset RingId} :
    engine.Lists rings ↔ rings = (engine.index.filterMap (·.ring)).toFinset := by
  have listed (ring : RingId) : (∃ i, engine.ringAt i = some ring) ↔
      ring ∈ (engine.index.filterMap (·.ring)).toFinset := by
    rw [List.mem_toFinset, List.mem_filterMap]
    constructor
    · rintro ⟨i, found⟩
      obtain ⟨entry, read, valid⟩ := ringAt_eq_some.mp found
      exact ⟨entry, List.mem_of_getElem? read, valid⟩
    · rintro ⟨entry, member, valid⟩
      obtain ⟨i, read⟩ := List.getElem?_of_mem member
      exact ⟨i, ringAt_eq_some.mpr ⟨entry, read, valid⟩⟩
  simp only [Lists, listed, Finset.ext_iff]

instance (engine : Engine) (rings : Finset RingId) : Decidable (engine.Lists rings) :=
  decidable_of_iff _ lists_iff.symm

/-- The records that the engine thread gets from `it.next()` in `process_rings_tso`. -/
def reads (engine : Engine) : Option (RingId × Record) :=
  match engine.pc with
  | .walk i _ => do
      let entry ← engine.index[i]?
      let ring ← entry.ring
      let (slot, _) ← entry.pit.next (engine.obj ring).ring.capacity
      return (ring, (engine.obj ring).ring.slots slot)
  | _ => none

/-- A TSO entry as an item of its ring. -/
def stamped (engine : Engine) (te : TsoEntry) : RingId × Nat :=
  ((engine.ringAt te.tag).getD 0, te.timestamp.toNat)

/-- The rings of the first `count` index entries. -/
def Done (engine : Engine) (count : Nat) (closed : List RingId) : Prop :=
  ∀ i, i < count → ∀ ring, engine.ringAt i = some ring → ring ∈ closed

/-- Index entry `i` is being read up to position `limit` of its ring. -/
structure Reading (engine : Engine) (merge : Merge RingId Nat) (i : Nat) (tsoTs : UInt64)
    (closed : List RingId) (ring : RingId) (limit : Nat) : Prop where
  done : engine.Done i closed
  here : ∃ entry passed, engine.AtRecord i entry ring passed limit
  clock : tsoTs = 0 ∨ ∃ position, position < merge.reach ring ∧
    (merge.queued ring)[position]? = some tsoTs.toNat

/-- The stage that the program counter stands for. -/
def Shows (engine : Engine) (merge : Merge RingId Nat) : Prop :=
  match engine.pc with
  | .idle | .commit _ | .finish => merge.stage = .resting
  | .rebuild => merge.stage = .reading [] none
  | .scan i => ∃ closed, engine.Done i closed ∧ merge.stage = .reading closed none
  | .orphan i | .empty i | .kill i | .release i _ =>
      ∃ closed, engine.Done (i + 1) closed ∧ merge.stage = .reading closed none
  | .walk i tsoTs => ∃ closed ring limit, engine.Reading merge i tsoTs closed ring limit ∧
      merge.stage = .reading closed (some (ring, limit))
  | .doFlush left (.full i tsoTs) => ∃ closed ring limit,
      engine.Reading merge i tsoTs closed ring limit ∧
      merge.stage = .flushing left closed (some (ring, limit))
  | .doFlush left .final => ∃ closed, (∀ i, engine.Done i closed) ∧
      merge.stage = .flushing left closed none
  | .drain _ | .halted => False

structure Refines (engine : Engine) (merge : Merge RingId Nat) : Prop where
  queued : ∀ ring, merge.queued ring = (engine.shared.committed ring).map timeOf
  emitted : ∀ ring, merge.emitted ring = engine.handed ring
  output : merge.output = (flushedAll engine.shared.trace).map timeOf
  buffer : merge.buffer = engine.tso.entries.map engine.stamped
  leftover : merge.leftover = engine.leftover
  shows : engine.Shows merge

theorem flushedAll_silent {events : List Event}
    (silent : ∀ event ∈ events, ∀ ring record, event ≠ .flushed ring record) :
    flushedAll events = [] := by
  rw [flushedAll, List.filterMap_eq_nil_iff]
  intro event member
  have other := silent event member
  cases event with
  | flushed ring record => exact absurd rfl (other ring record)
  | _ => rfl

theorem flushedAll_aside {events : List Event} (aside : ∀ event ∈ events, event.aside) :
    flushedAll events = [] := by
  apply flushedAll_silent
  rintro event member ring record rfl
  cases aside _ member

theorem flushedAll_minor {events : List Event} (minor : ∀ event ∈ events, event.minor) :
    flushedAll events = [] := by
  apply flushedAll_silent
  rintro event member ring record rfl
  cases minor _ member

theorem flushedAll_byClient {events : List Event} (byClient : ∀ event ∈ events, event.byClient) :
    flushedAll events = [] := by
  apply flushedAll_silent
  rintro event member ring record rfl
  cases byClient _ member

theorem flushedAll_append (first second : List Event) :
    flushedAll (first ++ second) = flushedAll first ++ flushedAll second :=
  List.filterMap_append

theorem flushedTo_aside {events : List Event} (aside : ∀ event ∈ events, event.aside)
    (ring : RingId) : flushedTo ring events = [] := by
  apply flushedTo_silent
  rintro event member record rfl
  cases aside _ member

theorem Handed.flushedAll {ring : RingId} {slot : UInt32} (handed : Handed engine next ring slot) :
    flushedAll next.shared.trace =
      flushedAll engine.shared.trace ++ [(engine.obj ring).ring.slots slot] := by
  obtain ⟨reports, rest, trace, reportsMinor, restMinor⟩ := handed.trace
  have last : Polling.flushedAll (.flushed ring ((engine.obj ring).ring.slots slot) :: rest) =
      [(engine.obj ring).ring.slots slot] := by
    rw [← List.singleton_append, flushedAll_append, flushedAll_minor restMinor]
    rfl
  rw [trace, flushedAll_append, flushedAll_append, last, flushedAll_minor reportsMinor,
    List.append_nil]

theorem Handed.unpolled {ring : RingId} {slot : UInt32} (handed : Handed engine next ring slot) :
    ∃ events, next.shared.trace = engine.shared.trace ++ events ∧ .polled ∉ events := by
  obtain ⟨reports, rest, trace, reportsMinor, restMinor⟩ := handed.trace
  refine ⟨_, trace.trans (List.append_assoc _ _ _), fun member => ?_⟩
  rcases List.mem_append.mp member with report | later
  · cases reportsMinor _ report
  · rcases List.mem_cons.mp later with same | minor
    · cases same
    · cases restMinor _ minor

namespace Refines

/-- A step that neither commits nor flushes has to account for the buffer and its place. -/
theorem aside (refines : Refines engine merge) {events : List Event}
    (trace : next.shared.trace = engine.shared.trace ++ events)
    (aside : ∀ event ∈ events, event.aside) (queued : after.queued = merge.queued)
    (emitted : after.emitted = merge.emitted) (output : after.output = merge.output)
    (buffer : after.buffer = next.tso.entries.map next.stamped)
    (leftover : after.leftover = next.leftover) (shows : next.Shows after) :
    Refines next after := by
  have byEngine (event : Event) (member : event ∈ events) : event.byClient = false :=
    Event.byClient_of_aside (aside event member)
  refine ⟨fun ring => ?_, fun ring => ?_, ?_, buffer, leftover, shows⟩
  · rw [queued, refines.queued, Shared.committed, Shared.committed, trace, committedTo_append,
      committedTo_byEngine byEngine, List.append_nil]
  · rw [emitted, refines.emitted, handed, handed, Shared.flushed, Shared.flushed, trace,
      flushedTo_append, flushedTo_aside aside, List.append_nil]
  · rw [output, refines.output, trace, flushedAll_append, flushedAll_aside aside, List.append_nil]

/-- The items of a ring are the entries with its tag. -/
theorem lane (refines : Refines engine merge) (sound : engine.Sound) {i : Nat} {ring : RingId}
    (found : engine.ringAt i = some ring) :
    Merge.lane ring merge.buffer = (engine.pending i).map (·.timestamp.toNat) := by
  rw [refines.buffer, Merge.lane, List.filter_map, List.map_map, pending]
  refine congrArg (List.map _) (List.filter_congr fun te member => ?_)
  obtain ⟨owner, tagged, -⟩ := sound.tracked.tagged te member
  have same : owner = ring ↔ te.tag = i := by
    constructor
    · rintro rfl
      exact sound.registered.distinct _ _ owner tagged found
    · rintro rfl
      exact Option.some.inj (tagged.symm.trans found)
  rw [Function.comp_apply, stamped, tagged, Option.getD_some, Bool.eq_iff_iff, decide_eq_true_iff,
    beq_iff_eq]
  exact same

theorem reach (refines : Refines engine merge) (sound : engine.Sound) {i : Nat} {ring : RingId}
    (found : engine.ringAt i = some ring) :
    merge.reach ring = engine.handed ring + (engine.pending i).length := by
  rw [Merge.reach, refines.lane sound found, List.length_map, refines.emitted]

end Refines

/-- An iterator stands at one position and before one limit. -/
theorem AtRecord.limit_unique {i i' passed passed' limit limit' : Nat} {entry : IndexEntry}
    {ring : RingId} (sound : engine.Sound) (here : engine.AtRecord i entry ring passed limit)
    (here' : engine.AtRecord i' entry ring passed' limit') : limit = limit' := by
  have spans := sound.tracked.spanned ring
  have bounded := spans.bounded
  have ordered := here.stands.ordered
  have ordered' := here'.stands.ordered
  have lower := here.lower
  have lower' := here'.lower
  have upper := here.upper
  have upper' := here'.upper
  exact slotOf_injective spans.isMask (here.stands.tail.symm.trans here'.stands.tail)
    (by rw [slotCount]; omega) (by rw [slotCount]; omega)

/-- An iterator that is left alone stays where it is. -/
theorem AtRecord.frame {i passed limit : Nat} {entry entry' : IndexEntry} {ring : RingId}
    (here : engine.AtRecord i entry ring passed limit) (found : next.index[i]? = some entry')
    (ringEq : entry'.ring = entry.ring) (pitEq : entry'.pit = entry.pit)
    (capacity : (next.obj ring).ring.capacity = (engine.obj ring).ring.capacity)
    (popped : next.shared.popped ring = engine.shared.popped ring)
    (longer : (engine.shared.committed ring).length ≤ (next.shared.committed ring).length) :
    next.AtRecord i entry' ring passed limit where
  found := found
  valid := ringEq.trans here.valid
  stands := by
    rw [capacity, pitEq]
    exact here.stands
  lower := popped ▸ here.lower
  upper := here.upper.trans longer

theorem Reading.frame {i limit : Nat} {tsoTs : UInt64} {closed : List RingId} {ring : RingId}
    (reading : engine.Reading merge i tsoTs closed ring limit) (ringAt : next.ringAt = engine.ringAt)
    (index : ∀ entry, engine.index[i]? = some entry → ∃ entry', next.index[i]? = some entry' ∧
      entry'.ring = entry.ring ∧ entry'.pit = entry.pit)
    (capacity : (next.obj ring).ring.capacity = (engine.obj ring).ring.capacity)
    (popped : next.shared.popped ring = engine.shared.popped ring)
    (longer : (engine.shared.committed ring).length ≤ (next.shared.committed ring).length)
    (reach : merge.reach ring ≤ after.reach ring)
    (queued : merge.queued ring <+: after.queued ring) :
    next.Reading after i tsoTs closed ring limit where
  done j below owner found := reading.done j below owner (ringAt ▸ found)
  here := by
    obtain ⟨entry, passed, here⟩ := reading.here
    obtain ⟨entry', found, ringEq, pitEq⟩ := index entry here.found
    exact ⟨entry', passed, here.frame found ringEq pitEq capacity popped longer⟩
  clock := by
    refine reading.clock.imp_right ?_
    rintro ⟨position, below, read⟩
    obtain ⟨rest, whole⟩ := queued
    refine ⟨position, below.trans_le reach, ?_⟩
    rw [← whole, List.getElem?_append_left (List.getElem?_eq_some_iff.mp read).1, read]

/-- A step that leaves the engine thread where it is. -/
theorem Shows.frame (shows : engine.Shows merge) (pc : next.pc = engine.pc)
    (ringAt : next.ringAt = engine.ringAt) (stage : after.stage = merge.stage)
    (reads : ∀ {i : Nat} {tsoTs : UInt64} {closed : List RingId} {ring : RingId} {limit : Nat},
      engine.Reading merge i tsoTs closed ring limit →
      next.Reading after i tsoTs closed ring limit) : next.Shows after := by
  have done {count : Nat} {closed : List RingId} (done : engine.Done count closed) :
      next.Done count closed := fun i below ring found => done i below ring (ringAt ▸ found)
  rw [Shows] at shows ⊢
  rw [pc, stage]
  cases place : engine.pc with
  | idle | commit | finish | rebuild | drain | halted =>
      rw [place] at shows
      exact shows
  | scan | orphan | empty | kill | release =>
      rw [place] at shows
      obtain ⟨closed, all, at'⟩ := shows
      exact ⟨closed, done all, at'⟩
  | walk i tsoTs =>
      rw [place] at shows
      obtain ⟨closed, ring, limit, reading, at'⟩ := shows
      exact ⟨closed, ring, limit, reads reading, at'⟩
  | doFlush left caller =>
      rw [place] at shows
      cases caller with
      | full i tsoTs =>
          obtain ⟨closed, ring, limit, reading, at'⟩ := shows
          exact ⟨closed, ring, limit, reads reading, at'⟩
      | final =>
          obtain ⟨closed, all, at'⟩ := shows
          exact ⟨closed, fun count => done (all count), at'⟩

/-- Only the end of a poll flushes without a ring to go back to. -/
theorem Shows.settled (shows : engine.Shows merge) {left : Nat} {closed : List RingId}
    (stage : merge.stage = .flushing left closed none) (count : Nat) : engine.Done count closed := by
  rw [Shows] at shows
  cases place : engine.pc with
  | idle | commit | finish | rebuild =>
      rw [place, stage] at shows
      cases shows
  | scan | orphan | empty | kill | release =>
      rw [place, stage] at shows
      obtain ⟨_, -, other⟩ := shows
      cases other
  | walk =>
      rw [place, stage] at shows
      obtain ⟨_, _, _, -, other⟩ := shows
      cases other
  | drain | halted =>
      rw [place] at shows
      exact shows.elim
  | doFlush left caller =>
      rw [place, stage] at shows
      cases caller with
      | full i tsoTs =>
          obtain ⟨_, _, _, -, other⟩ := shows
          cases other
      | final =>
          obtain ⟨_, done, same⟩ := shows
          cases same
          exact done count

/-- How the events of a step look to an observer of the merge. -/
def Logged (move : Move RingId) (events : List Event) : Prop :=
  match move with
  | .begun => events = [.polled]
  | .opened => ∃ ring, events = [.snapshot ring]
  | _ => .polled ∉ events

/-- A step of the engine thread is a step of the merge. -/
structure Simulated (size : Nat) (engine next : Engine) (merge after : Merge RingId Nat)
    (move : Move RingId) : Prop where
  step : Merge.Step size (size / 8) merge move after
  refines : Refines next after
  logged : ∃ events, next.shared.trace = engine.shared.trace ++ events ∧ Logged move events
  read : ∀ ring record, engine.reads = some (ring, record) ↔
    move = .taken ring ∧ (engine.shared.committed ring)[merge.reach ring]? = some record
  taken : ∀ ring, move = .taken ring → (∃ i, engine.ringAt i = some ring) ∧
    .tsoPush merge.buffer.length ∈ next.shared.trace

theorem reads_none (elsewhere : ∀ i tsoTs, engine.pc ≠ .walk i tsoTs) : engine.reads = none := by
  rw [reads]
  split
  · rename_i i tsoTs place
    exact absurd place (elsewhere i tsoTs)
  · rfl

theorem reads_at {pc : Pc} (place : engine.pc = pc) (elsewhere : ∀ i tsoTs, pc ≠ .walk i tsoTs) :
    engine.reads = none :=
  reads_none fun i tsoTs walks => elsewhere i tsoTs (place.symm.trans walks)

/-- Outside of a walk nothing is read. -/
theorem Simulated.of_unread {size : Nat} {move : Move RingId}
    (step : Merge.Step size (size / 8) merge move after) (refines : Refines next after)
    (logged : ∃ events, next.shared.trace = engine.shared.trace ++ events ∧ Logged move events)
    (unread : engine.reads = none) (untaken : ∀ ring, move ≠ .taken ring) :
    Simulated size engine next merge after move := by
  refine ⟨step, refines, logged, fun ring record => ?_, fun ring taken => absurd taken (untaken ring)⟩
  rw [unread]
  constructor
  · exact fun same => by cases same
  · exact fun both => absurd both.1 (untaken ring)

/-- A step that reads the next record of a ring. -/
theorem Simulated.of_read {size i : Nat} {ring : RingId} {record : Record}
    (step : Merge.Step size (size / 8) merge (.taken ring) after) (refines : Refines next after)
    (logged : ∃ events, next.shared.trace = engine.shared.trace ++ events ∧
      Logged (.taken ring) events) (found : engine.ringAt i = some ring)
    (reads : engine.reads = some (ring, record))
    (read : (engine.shared.committed ring)[merge.reach ring]? = some record)
    (pushed : .tsoPush merge.buffer.length ∈ next.shared.trace) :
    Simulated size engine next merge after (.taken ring) := by
  refine ⟨step, refines, logged, fun other record' => ?_, fun other taken => ?_⟩
  · rw [reads]
    constructor
    · rintro same
      cases same
      exact ⟨rfl, read⟩
    · rintro ⟨same, found⟩
      cases same
      rw [Option.some.inj (read.symm.trans found)]
  · cases taken
    exact ⟨⟨i, found⟩, pushed⟩

theorem markTsoFull_leftover (engine : Engine) : engine.markTsoFull.leftover = engine.leftover := by
  rcases engine.markTsoFull_cases with same | ⟨event, -, same⟩ | same <;> rw [same] <;> rfl

namespace Refines

variable {size : Nat}

theorem tail_eq (refines : Refines engine merge) (roomy : engine.Roomy size)
    (outside : engine.pc.flushing = false) : merge.buffer.length = engine.tso.tail := by
  rw [refines.buffer, List.length_map, Tsobuf.tail, (roomy.scanning outside).1, Nat.zero_add]

/-- A step of the engine thread that the merge does not see. -/
theorem unseen (refines : Refines engine merge) {events : List Event}
    (trace : next.shared.trace = engine.shared.trace ++ events)
    (aside : ∀ event ∈ events, event.aside) (unpolled : .polled ∉ events)
    (entries : next.tso.entries.map next.stamped = engine.tso.entries.map engine.stamped)
    (leftover : next.leftover = engine.leftover) (shows : next.Shows merge)
    (unread : engine.reads = none) : Simulated size engine next merge merge .other :=
  .of_unread (.grown fun _ => List.prefix_rfl)
    (refines.aside trace aside rfl rfl rfl (refines.buffer.trans entries.symm)
      (refines.leftover.trans leftover.symm) shows) ⟨events, trace, unpolled⟩ unread (by simp)

/-- A step that only moves the round on. -/
theorem moves (refines : Refines engine merge) {move : Move RingId} {stage : Stage RingId}
    {events : List Event} (step : Merge.Step size (size / 8) merge move { merge with stage })
    (trace : next.shared.trace = engine.shared.trace ++ events)
    (aside : ∀ event ∈ events, event.aside) (logged : Logged move events)
    (entries : next.tso.entries.map next.stamped = engine.tso.entries.map engine.stamped)
    (leftover : next.leftover = engine.leftover) (shows : next.Shows { merge with stage })
    (unread : engine.reads = none) (untaken : ∀ ring, move ≠ .taken ring) :
    Simulated size engine next merge { merge with stage } move :=
  .of_unread step (refines.aside trace aside rfl rfl rfl (refines.buffer.trans entries.symm)
    (refines.leftover.trans leftover.symm) shows) ⟨events, trace, logged⟩ unread untaken

end Refines

/-! ## Every shape of a step -/

section Places

variable {i : Nat} {closed : List RingId}

theorem shows_scan (place : engine.pc = .scan i) (done : engine.Done i closed)
    (stage : merge.stage = .reading closed none) : engine.Shows merge := by
  rw [Shows, place]
  exact ⟨closed, done, stage⟩

theorem Refines.scanned (refines : Refines engine merge) (place : engine.pc = .scan i) :
    ∃ closed, engine.Done i closed ∧ merge.stage = .reading closed none := by
  have shows := refines.shows
  rw [Shows, place] at shows
  exact shows

theorem Refines.reaped (refines : Refines engine merge) (place : engine.pc.Reaping i) :
    ∃ closed, engine.Done (i + 1) closed ∧ merge.stage = .reading closed none := by
  have shows := refines.shows
  rw [Shows] at shows
  cases at' : engine.pc with
  | orphan j | empty j | kill j =>
      rw [at'] at shows place
      cases place
      exact shows
  | _ =>
      rw [at'] at place
      exact place.elim

theorem not_walking_of_reaping (place : engine.pc.Reaping i) (j : Nat) (tsoTs : UInt64) :
    engine.pc ≠ .walk j tsoTs := by
  intro walks
  rw [walks] at place
  exact place

theorem stamped_congr (same : next.ringAt = engine.ringAt) : next.stamped = engine.stamped := by
  funext te
  rw [stamped, stamped, same]

theorem Done.congr {count : Nat} (done : engine.Done count closed)
    (same : next.ringAt = engine.ringAt) : next.Done count closed := by
  intro j below ring found
  exact done j below ring (same ▸ found)

theorem Done.succ {ring : RingId} (done : engine.Done i closed)
    (found : engine.ringAt i = some ring) : engine.Done (i + 1) (ring :: closed) := by
  intro j below owner owns
  rcases Nat.lt_succ_iff_lt_or_eq.mp below with before | rfl
  · exact List.mem_cons_of_mem _ (done j before owner owns)
  · rw [Option.some.inj (owns.symm.trans found)]
    exact List.mem_cons_self

/-- Past the end of the index all rings are done. -/
theorem Done.all (done : engine.Done i closed) (past : engine.index[i]? = none) (count : Nat) :
    engine.Done count closed := by
  intro j _ ring found
  refine done j ?_ ring found
  obtain ⟨entry, read, -⟩ := ringAt_eq_some.mp found
  have inside := (List.getElem?_eq_some_iff.mp read).1
  have outside := List.getElem?_eq_none_iff.mp past
  omega

end Places

theorem flushSize_eq (engine : Engine) :
    engine.flushSize = max (engine.tso.entries.length - engine.tso.capacity / 8) engine.leftover := by
  have unfolded (size keep leftover : Nat) : (if (if keep < size then size - keep else 0) < leftover
      then leftover else if keep < size then size - keep else 0) = max (size - keep) leftover := by
    by_cases more : keep < size
    · simp only [more, if_true]
      split <;> omega
    · simp only [more, if_false]
      split <;> omega
  exact unfolded engine.tso.entries.length (engine.tso.capacity / 8) engine.leftover

/-- `std::sort` sorts the items, and adds and drops none. -/
theorem sort_items (std : StdSort) (entries : List TsoEntry) :
    ((std.sort Tsobuf.less entries).map engine.stamped).Perm (entries.map engine.stamped) ∧
      Merge.Sorted ((std.sort Tsobuf.less entries).map engine.stamped) := by
  refine ⟨(std.perm _ entries).map _, List.pairwise_map.mpr ?_⟩
  refine (std.sorted entries less_weak).imp fun {first second} least => ?_
  rw [Tsobuf.less, decide_eq_false_iff_not, UInt64.not_lt, UInt64.le_iff_toNat_le] at least
  exact least

theorem flushFull_items (std : StdSort) (engine : Engine) (i : Nat) (tsoTs : UInt64) :
    let full := engine.flushFullTso std i tsoTs
    (full.tso.entries.map full.stamped).Perm (engine.tso.entries.map engine.stamped) ∧
      Merge.Sorted (full.tso.entries.map full.stamped) := by
  intro full
  have ringAt : full.ringAt = engine.ringAt := (Kept.flushFullTso std i tsoTs).ringAt
  rw [stamped_congr ringAt]
  exact sort_items std engine.tso.entries

namespace Refines

variable {size : Nat}

theorem polls (refines : Refines engine merge) (place : engine.pc = .idle) :
    ∃ after, Simulated size engine engine.processRings merge after .begun := by
  have resting := refines.shows
  rw [Shows, place] at resting
  refine ⟨{ merge with stage := .reading [] none }, refines.moves (.begun resting) rfl
    (List.forall_mem_singleton.mpr rfl) rfl rfl rfl ?_
    (reads_at place (by simp)) (by simp)⟩
  by_cases dirty : engine.shared.dirty = true
  · have goes : engine.processRings.pc = .rebuild := if_pos dirty
    rw [Shows, goes]
  · exact shows_scan (if_neg dirty) (fun _ below => absurd below (Nat.not_lt_zero _)) rfl

theorem settles (refines : Refines engine merge) (std : StdSort) {i : Nat}
    (place : engine.pc = .scan i) (past : engine.index[i]? = none)
    (capacity : engine.tso.capacity = size) :
    ∃ after, Simulated size engine (engine.flushTso std) merge after .other := by
  obtain ⟨closed, done, stage⟩ := refines.scanned place
  have due : merge.due (size / 8) = engine.flushSize := by
    rw [Merge.due, refines.buffer, List.length_map, refines.leftover, flushSize_eq, capacity]
  have tso : (engine.flushTso std).tso =
      if engine.flushSize = 0 then engine.tso else engine.tso.sort std := rfl
  have items := @sort_items engine std engine.tso.entries
  refine ⟨{ merge with
    buffer := (engine.flushTso std).tso.entries.map engine.stamped
    stage := .flushing (merge.due (size / 8)) closed none }, .of_unread (.settled stage ?_ ?_)
    (refines.aside (List.append_nil _).symm (List.forall_mem_nil _) rfl rfl rfl rfl
      refines.leftover ?_) ⟨[], (List.append_nil _).symm, List.not_mem_nil⟩
    (reads_at place (by simp)) (by simp)⟩
  · rw [refines.buffer, tso]
    split
    · exact List.Perm.refl _
    · exact items.1
  · rw [due, refines.buffer, tso]
    split
    · rename_i none
      exact .inr ⟨none, rfl⟩
    · exact .inl items.2
  · rw [Shows, due]
    exact ⟨closed, fun count => done.all past count, rfl⟩

theorem opens (refines : Refines engine merge) {i : Nat} {entry : IndexEntry} {ring : RingId}
    (sound : engine.Sound) (place : engine.pc = .scan i) (found : engine.index[i]? = some entry)
    (valid : entry.ring = some ring) :
    ∃ after, Simulated size engine (((engine.setEntry i { entry with
      pit := .reset (engine.obj ring).ring }).log (.snapshot ring)).goto (.walk i 0))
      merge after .opened := by
  obtain ⟨closed, done, stage⟩ := refines.scanned place
  have spanned := sound.tracked.spanned ring
  have ringAt := ringAt_setEntry_same found { entry with pit := .reset (engine.obj ring).ring } rfl
  have inside := (List.getElem?_eq_some_iff.mp found).1
  have steady : Shared.Steady engine.shared (engine.shared.log (.snapshot ring)) := .log rfl
  refine ⟨{ merge with stage := .reading closed (some (ring, (merge.queued ring).length)) },
    refines.moves (.opened stage) rfl (List.forall_mem_singleton.mpr rfl) ⟨ring, rfl⟩ ?_ rfl ?_
    (reads_at place (by simp)) (by simp)⟩
  · exact congrArg (engine.tso.entries.map ·) (stamped_congr ringAt)
  · refine ⟨closed, ring, _, ⟨done.congr ringAt, ⟨{ entry with pit := .reset (engine.obj ring).ring },
      engine.shared.popped ring, ?_⟩, .inl rfl⟩, rfl⟩
    rw [refines.queued, List.length_map]
    refine ⟨List.getElem?_set_self inside, valid, PopIterator.Stands.reset spanned, ?_, ?_⟩
    · exact Nat.le_of_eq (steady.popped ring)
    · exact Nat.le_of_eq (congrArg List.length (steady.committed ring)).symm

/-- The walk of the merge is the walk of the engine. -/
theorem walks (refines : Refines engine merge) (sound : engine.Sound) {i passed limit : Nat}
    {tsoTs : UInt64} {entry : IndexEntry} {ring : RingId} (delivering : engine.Delivering ring)
    (place : engine.pc = .walk i tsoTs) (here : engine.AtRecord i entry ring passed limit) :
    ∃ closed, merge.stage = .reading closed (some (ring, limit)) ∧ merge.reach ring = passed ∧
      engine.Reading merge i tsoTs closed ring limit := by
  have shows := refines.shows
  rw [Shows, place] at shows
  obtain ⟨closed, ring', limit', reading, stage⟩ := shows
  obtain ⟨entry', passed', here'⟩ := reading.here
  obtain rfl : entry' = entry := Option.some.inj (here'.found.symm.trans here.found)
  obtain rfl : ring' = ring := Option.some.inj (here'.valid.symm.trans here.valid)
  obtain rfl := here'.limit_unique sound here
  refine ⟨closed, stage, ?_, reading⟩
  rw [refines.reach sound (ringAt_eq_some.mpr ⟨entry', here.found, here.valid⟩)]
  exact (delivering.passed_eq sound (by rw [place]; rfl) here).1.symm

theorem closes (refines : Refines engine merge) (sound : engine.Sound) {i passed : Nat}
    {tsoTs : UInt64} {entry : IndexEntry} {ring : RingId} (delivering : engine.Delivering ring)
    (place : engine.pc = .walk i tsoTs) (here : engine.AtRecord i entry ring passed passed) :
    ∃ after, Simulated size engine (engine.goto (.orphan i)) merge after .other := by
  obtain ⟨closed, stage, reached, reading⟩ := refines.walks sound delivering place here
  have unread : engine.reads = none := by
    rw [reads, place]
    simp only [here.found, here.valid, Option.bind_eq_bind, Option.bind_some,
      here.stands.next_eq (sound.tracked.spanned ring).isMask, if_true, Option.bind_none]
  refine ⟨{ merge with stage := .reading (ring :: closed) none },
    refines.moves (.closed stage reached) (List.append_nil _).symm (List.forall_mem_nil _)
    List.not_mem_nil rfl rfl ?_ unread (by simp)⟩
  exact ⟨ring :: closed, reading.done.succ (ringAt_eq_some.mpr ⟨entry, here.found, here.valid⟩), rfl⟩

/-- The engine reads the next record of the ring, and does not adjust its timestamp. -/
theorem reads_next (refines : Refines engine merge) (sound : engine.Sound) {i passed limit : Nat}
    {tsoTs : UInt64} {entry : IndexEntry} {ring : RingId} (delivering : engine.Delivering ring)
    (rising : Rising (engine.shared.committed ring)) (place : engine.pc = .walk i tsoTs)
    (here : engine.AtRecord i entry ring passed limit) (more : passed < limit) :
    ∃ record, (engine.shared.committed ring)[passed]? = some record ∧
      (engine.entryFor i tsoTs ring passed).timestamp = record.timestamp ∧
      engine.reads = some (ring, record) := by
  obtain ⟨closed, -, reached, reading⟩ := refines.walks sound delivering place here
  have upper := here.upper
  have far := refines.reach sound (ringAt_eq_some.mpr ⟨entry, here.found, here.valid⟩)
  have inside : passed < (engine.shared.committed ring).length := by omega
  have stored := @Delivering.record_at engine ring passed delivering (by omega) inside
  have later : tsoTs < (engine.shared.committed ring)[passed].timestamp := by
    rcases reading.clock with rfl | ⟨position, below, read⟩
    · exact rising.positive _ (List.getElem_mem inside)
    · rw [refines.queued, List.getElem?_map, Option.map_eq_some_iff] at read
      obtain ⟨earlier, found, same⟩ := read
      obtain ⟨low, rfl⟩ := List.getElem?_eq_some_iff.mp found
      have less := List.pairwise_iff_getElem.mp rising.increasing position passed low inside (by omega)
      rw [UInt64.lt_iff_toNat_lt] at less ⊢
      exact same ▸ less
  refine ⟨(engine.shared.committed ring)[passed], List.getElem?_eq_getElem inside, ?_, ?_⟩
  · rw [entryFor]
    dsimp only
    rw [stored, adjust_of_lt later]
  · rw [reads, place]
    simp only [here.found, here.valid, Option.bind_eq_bind, Option.bind_some,
      here.stands.next_eq (sound.tracked.spanned ring).isMask, if_neg (Nat.ne_of_lt more), stored,
      Option.pure_def]

/-- What a push leaves behind. -/
theorem pushes (refines : Refines engine merge) (sound : engine.Sound) {i passed limit : Nat}
    {tsoTs : UInt64} {entry : IndexEntry} {ring : RingId} {closed : List RingId} {record : Record}
    (here : engine.AtRecord i entry ring passed limit) (more : passed < limit)
    (done : engine.Done i closed) (reached : merge.reach ring = passed)
    (read : (engine.shared.committed ring)[passed]? = some record)
    (stamp : (engine.entryFor i tsoTs ring passed).timestamp = record.timestamp) :
    let pushed := engine.pushRecord i entry (engine.beyond entry ring passed)
      (engine.entryFor i tsoTs ring passed)
    pushed.ringAt = engine.ringAt ∧
      pushed.tso.entries.map pushed.stamped = (merge.take ring (timeOf record)).buffer ∧
      pushed.Reading (merge.take ring (timeOf record)) i record.timestamp closed ring limit := by
  intro pushed
  have at' : engine.ringAt i = some ring := ringAt_eq_some.mpr ⟨entry, here.found, here.valid⟩
  have ringAt : pushed.ringAt = engine.ringAt := ringAt_setEntry_same here.found
    { entry with pit := engine.beyond entry ring passed } rfl
  have inside := (List.getElem?_eq_some_iff.mp here.found).1
  have steady : Shared.Steady engine.shared pushed.shared := .log rfl
  refine ⟨ringAt, ?_, done.congr ringAt, ?_, .inr ⟨passed, ?_, ?_⟩⟩
  · rw [stamped_congr ringAt]
    change (engine.tso.entries ++ [engine.entryFor i tsoTs ring passed]).map engine.stamped = _
    rw [List.map_append, ← refines.buffer, List.map_singleton, stamped, stamp]
    change _ ++ [((engine.ringAt i).getD 0, _)] = _
    rw [at']
    rfl
  · exact ⟨{ entry with pit := engine.beyond entry ring passed }, passed + 1,
      List.getElem?_set_self inside, here.valid,
      here.stands.advance (sound.tracked.spanned ring).isMask more,
      (steady.popped ring).trans_le (Nat.le_succ_of_le here.lower),
      here.upper.trans_eq (congrArg List.length (steady.committed ring)).symm⟩
  · rw [Merge.reach_take, reached, if_pos rfl]
    exact Nat.lt_succ_self passed
  · change (merge.queued ring)[passed]? = _
    rw [refines.queued, List.getElem?_map, read]
    rfl

theorem takes (refines : Refines engine merge) (sound : engine.Sound) (roomy : engine.Roomy size)
    {i passed limit : Nat} {tsoTs : UInt64} {entry : IndexEntry} {ring : RingId}
    (delivering : engine.Delivering ring) (rising : Rising (engine.shared.committed ring))
    (place : engine.pc = .walk i tsoTs) (here : engine.AtRecord i entry ring passed limit)
    (more : passed < limit) :
    ∃ after, Simulated size engine (engine.pushRecord i entry (engine.beyond entry ring passed)
      (engine.entryFor i tsoTs ring passed)) merge after (.taken ring) := by
  obtain ⟨closed, stage, reached, reading⟩ := refines.walks sound delivering place here
  obtain ⟨record, read, stamp, reads⟩ := refines.reads_next sound delivering rising place here more
  obtain ⟨-, buffer, moved⟩ := refines.pushes sound here more reading.done reached read stamp
  refine ⟨merge.take ring (timeOf record), .of_read (.taken stage (reached ▸ more) ?_)
    (refines.aside rfl (List.forall_mem_singleton.mpr rfl) rfl rfl rfl buffer.symm refines.leftover
      ⟨closed, ring, limit, ?_, stage⟩) ⟨[.tsoPush engine.tso.tail], rfl, by simp [Logged]⟩
    (ringAt_eq_some.mpr ⟨entry, here.found, here.valid⟩) reads (reached ▸ read) ?_⟩
  · rw [refines.queued, reached, List.getElem?_map, read]
    rfl
  · rw [stamp]
    exact moved
  · rw [refines.tail_eq roomy (by rw [place]; rfl)]
    exact List.mem_append_right _ List.mem_cons_self

/-- The push that fills the buffer. -/
theorem fills (refines : Refines engine merge) (std : StdSort) (sound : engine.Sound)
    (roomy : engine.Roomy size) {i passed limit : Nat} {tsoTs : UInt64} {entry : IndexEntry}
    {ring : RingId} (delivering : engine.Delivering ring)
    (rising : Rising (engine.shared.committed ring)) (place : engine.pc = .walk i tsoTs)
    (here : engine.AtRecord i entry ring passed limit) (more : passed < limit)
    (full : engine.tso.tail + 1 = engine.tso.capacity) :
    ∃ after, Simulated size engine ((engine.pushRecord i entry (engine.beyond entry ring passed)
      (engine.entryFor i tsoTs ring passed)).flushFullTso std i
        (engine.entryFor i tsoTs ring passed).timestamp) merge after (.taken ring) := by
  obtain ⟨closed, stage, reached, reading⟩ := refines.walks sound delivering place here
  obtain ⟨record, read, stamp, reads⟩ := refines.reads_next sound delivering rising place here more
  obtain ⟨-, buffer, moved⟩ := refines.pushes sound here more reading.done reached read stamp
  obtain ⟨pushed, pushedEq⟩ : ∃ pushed, pushed = engine.pushRecord i entry
    (engine.beyond entry ring passed) (engine.entryFor i tsoTs ring passed) := ⟨_, rfl⟩
  rw [← pushedEq] at buffer moved
  rw [stamp, ← pushedEq]
  have ringAt : (pushed.flushFullTso std i record.timestamp).ringAt = pushed.ringAt :=
    (Kept.flushFullTso std i record.timestamp).ringAt
  have steady : Shared.Steady pushed.shared (pushed.flushFullTso std i record.timestamp).shared :=
    markTsoFull_steady pushed
  have tail := refines.tail_eq roomy (by rw [place]; rfl)
  have size' : pushed.tso.size = size := by
    rw [← roomy.capacity, ← full, ← tail, refines.buffer, List.length_map, pushedEq]
    exact List.length_append
  obtain ⟨perm, sorted⟩ := flushFull_items std pushed i record.timestamp
  rw [buffer] at perm
  obtain ⟨events, marked, aside, unpolled⟩ := markTsoFull_aside pushed
  have trace : (pushed.flushFullTso std i record.timestamp).shared.trace =
      engine.shared.trace ++ .tsoPush engine.tso.tail :: events := by
    refine marked.trans ?_
    rw [pushedEq]
    exact List.append_assoc _ [_] _
  have leftover : (pushed.flushFullTso std i record.timestamp).leftover = engine.leftover := by
    refine (markTsoFull_leftover pushed).trans ?_
    rw [pushedEq]
    rfl
  refine ⟨{ merge with
    buffer := (pushed.flushFullTso std i record.timestamp).tso.entries.map
      (pushed.flushFullTso std i record.timestamp).stamped
    stage := .flushing (size / 2) closed (some (ring, limit)) },
    .of_read (.filled stage (reached ▸ more) ?_ ?_ perm sorted)
    (refines.aside trace (List.forall_mem_cons.mpr ⟨rfl, aside⟩) rfl rfl rfl rfl
      (refines.leftover.trans leftover.symm) ?_) ⟨_, trace, ?_⟩ (ringAt_eq_some.mpr
      ⟨entry, here.found, here.valid⟩) reads (reached ▸ read) ?_⟩
  · rw [refines.queued, reached, List.getElem?_map, read]
    rfl
  · rw [tail, full, roomy.capacity]
  · rw [Shows, show (pushed.flushFullTso std i record.timestamp).pc =
      .doFlush (pushed.tso.size / 2) (.full i record.timestamp) from rfl, size']
    refine ⟨closed, ring, limit, moved.frame ringAt ?_ (steady.capacity ring) (steady.popped ring)
      (congrArg List.length (steady.committed ring)).ge ?_ List.prefix_rfl, rfl⟩
    · intro entry found
      exact ⟨entry, (congrArg (·[i]?) (markTsoFull_index pushed)).trans found, rfl, rfl⟩
    · exact (Merge.reach_perm (merge.take ring (timeOf record)) perm _ ring).ge
  · exact List.not_mem_cons_of_ne_of_not_mem (by simp) unpolled
  · rw [trace, tail]
    exact List.mem_append_right _ List.mem_cons_self

/-- The place of a merge that emits an item while the engine flushes one. -/
theorem flushes (refines : Refines engine merge) {left : Nat} {caller : Caller}
    (place : engine.pc = .doFlush (left + 1) caller) :
    ∃ closed current, merge.stage = .flushing (left + 1) closed current ∧
      ∀ {next : Engine} {after : Merge RingId Nat}, next.pc = .doFlush left caller →
        next.ringAt = engine.ringAt →
        (∀ (i : Nat) (entry : IndexEntry), engine.index[i]? = some entry → ∃ entry',
          next.index[i]? = some entry' ∧ entry'.ring = entry.ring ∧ entry'.pit = entry.pit) →
        Shared.Steady engine.shared next.shared → after.stage = .flushing left closed current →
        after.queued = merge.queued → (∀ ring, after.reach ring = merge.reach ring) →
        next.Shows after := by
  have shows := refines.shows
  rw [Shows, place] at shows
  cases caller with
  | full i tsoTs =>
      obtain ⟨closed, ring, limit, reading, stage⟩ := shows
      refine ⟨closed, some (ring, limit), stage, fun goes ringAt index steady on queued reach => ?_⟩
      rw [Shows, goes]
      exact ⟨closed, ring, limit, reading.frame ringAt (index i) (steady.capacity ring)
        (steady.popped ring) (congrArg List.length (steady.committed ring)).ge (reach ring).ge
        (queued ▸ List.prefix_rfl), on⟩
  | final =>
      obtain ⟨closed, done, stage⟩ := shows
      refine ⟨closed, none, stage, fun goes ringAt _ _ on _ _ => ?_⟩
      rw [Shows, goes]
      exact ⟨closed, fun count => (done count).congr ringAt, on⟩

/-- The first item of the buffer stands for the record that the engine hands over next. -/
theorem front (refines : Refines engine merge) {sources : Finset RingId}
    (faithful : Merge.Faithful sources merge) {te : TsoEntry} {rest : List TsoEntry}
    {entry : IndexEntry} {ring : RingId} (delivering : engine.Delivering ring)
    (popped : Delivering.Popped engine next ring te entry)
    (entries : engine.tso.entries = te :: rest) :
    merge.buffer = (ring, te.timestamp.toNat) :: rest.map engine.stamped ∧
      timeOf ((engine.obj ring).ring.slots te.slot) = te.timestamp.toNat := by
  have first : merge.buffer = (ring, te.timestamp.toNat) :: rest.map engine.stamped := by
    rw [refines.buffer, entries, List.map_cons, stamped, popped.indexed, Option.getD_some]
  obtain ⟨-, item⟩ := faithful.first_item first
  rw [refines.queued, refines.emitted, List.getElem?_map,
    List.getElem?_eq_getElem popped.more] at item
  rw [popped.slot, delivering.record_at (Nat.le_refl _) popped.more]
  exact ⟨first, Option.some.inj item⟩

theorem pops (refines : Refines engine merge) {sources : Finset RingId}
    (faithful : Merge.Faithful sources merge) (sound : engine.Sound) {left : Nat} {caller : Caller}
    {te : TsoEntry} {rest : List TsoEntry} {entry : IndexEntry} {ring : RingId}
    (delivering : engine.Delivering ring) (place : engine.pc = .doFlush (left + 1) caller)
    (entries : engine.tso.entries = te :: rest) (found : engine.index[te.tag]? = some entry)
    (valid : entry.ring = some ring) :
    ∃ after, Simulated size engine ((engine.popTo left caller rest).flushEntry te) merge after
      .other := by
  have popped := @Delivering.popped engine ring left caller te rest entry delivering sound entries
    found valid
  have given : Handed (engine.popTo left caller rest)
    ((engine.popTo left caller rest).flushEntry te) ring te.slot := flushEntry_handed found valid
  have index : ((engine.popTo left caller rest).flushEntry te).index =
    engine.index.set te.tag { entry with
      lastrec := some te.slot
      seqnum := UInt64.ofNat ((engine.obj ring).ring.slots te.slot).seqnum.toNat + 1 } :=
    flushEntry_index found valid
  obtain ⟨after, afterEq⟩ : ∃ after, after = (engine.popTo left caller rest).flushEntry te :=
    ⟨_, rfl⟩
  rw [← afterEq] at given popped index ⊢
  have steady : Shared.Steady engine.shared after.shared := given.steady
  obtain ⟨first, record⟩ := refines.front faithful delivering popped entries
  obtain ⟨closed, current, stage, still⟩ := refines.flushes place
  obtain ⟨events, trace, unpolled⟩ := given.unpolled
  refine ⟨merge.emit ring te.timestamp.toNat (rest.map engine.stamped)
    (.flushing left closed current), .of_unread (.emitted stage first)
    ⟨fun other => ?_, fun other => ?_, ?_, ?_, ?_, ?_⟩ ⟨events, trace, unpolled⟩
    (reads_at place (by simp)) (by simp)⟩
  · rw [steady.committed]
    exact refines.queued other
  · by_cases same : other = ring
    · subst same
      rw [Merge.emit_self, popped.handed, refines.emitted]
    · rw [Merge.emit_other same, refines.emitted, handed, handed, given.flushed_other same]
      rfl
  · rw [given.flushedAll, List.map_append]
    change merge.output ++ [te.timestamp.toNat] = (flushedAll engine.shared.trace).map timeOf ++
      [timeOf ((engine.obj ring).ring.slots te.slot)]
    rw [refines.output, record]
  · rw [given.tso, stamped_congr popped.ringAt]
    rfl
  · exact refines.leftover.trans given.leftover.symm
  · refine still given.pc popped.ringAt (fun i old read => ?_) steady rfl rfl
      (Merge.reach_emit first)
    by_cases same : i = te.tag
    · subst same
      obtain rfl := Option.some.inj (found.symm.trans read)
      have inside := (List.getElem?_eq_some_iff.mp found).1
      exact ⟨_, (congrArg (·[te.tag]?) index).trans (List.getElem?_set_self inside), rfl, rfl⟩
    · exact ⟨old, by rw [index, List.getElem?_set_ne (Ne.symm same), read], rfl, rfl⟩

theorem returns (refines : Refines engine merge) {left : Nat} {caller : Caller}
    (place : engine.pc = .doFlush left caller) (past : left = 0 ∨ engine.tso.entries = []) :
    ∃ after move, Simulated size engine (engine.flushReturn caller) merge after move := by
  have shows := refines.shows
  rw [Shows, place] at shows
  have past' : left = 0 ∨ merge.buffer = [] := past.imp_right fun none => by
    rw [refines.buffer, none, List.map_nil]
  have unread : engine.reads = none := reads_at place (by simp)
  cases caller with
  | full i tsoTs =>
      obtain ⟨closed, ring, limit, reading, stage⟩ := shows
      refine ⟨{ merge with leftover := 0, stage := .reading closed (some (ring, limit)) }, .other,
        .of_unread (.resumed stage past') (refines.aside rfl (List.forall_mem_singleton.mpr rfl) rfl
          rfl rfl refines.buffer rfl ⟨closed, ring, limit, ?_, rfl⟩) ⟨_, rfl, by simp [Logged]⟩ unread
          (by simp)⟩
      exact reading.frame rfl (fun entry found => ⟨entry, found, rfl, rfl⟩) rfl
        ((Shared.Steady.log rfl).popped ring)
        (congrArg List.length ((Shared.Steady.log rfl).committed ring)).ge (Nat.le_refl _)
        List.prefix_rfl
  | final =>
      obtain ⟨closed, -, stage⟩ := shows
      refine ⟨{ merge with leftover := merge.buffer.length, buffer := [], stage := .resting }, .rested,
        .of_unread (.rested stage past') (refines.aside (List.append_nil _).symm
          (List.forall_mem_nil _) rfl rfl rfl rfl ?_ rfl) ⟨[], (List.append_nil _).symm, ?_⟩ unread
          (by simp)⟩
      · rw [refines.buffer]
        exact List.length_map _
      · exact List.not_mem_nil

/-- The scan goes on behind an index entry that is done. -/
theorem scans (refines : Refines engine merge) {i : Nat} {closed : List RingId}
    {events : List Event} (trace : next.shared.trace = engine.shared.trace ++ events)
    (aside : ∀ event ∈ events, event.aside) (unpolled : .polled ∉ events)
    (ringAt : next.ringAt = engine.ringAt) (tso : next.tso = engine.tso)
    (leftover : next.leftover = engine.leftover) (unread : engine.reads = none)
    (done : engine.Done (i + 1) closed) (stage : merge.stage = .reading closed none)
    (goes : next.pc = .scan (i + 1) ∨ next.pc.Reaping i) :
    Simulated size engine next merge merge .other := by
  refine refines.unseen trace aside unpolled ?_ leftover ?_ unread
  · rw [stamped_congr ringAt, tso]
  · rcases goes with scan | reaps
    · exact shows_scan scan (done.congr ringAt) stage
    · rw [Shows]
      cases place : next.pc with
      | orphan j | empty j | kill j =>
          rw [place] at reaps
          cases reaps
          exact ⟨closed, done.congr ringAt, stage⟩
      | _ =>
          rw [place] at reaps
          exact reaps.elim

/-- Outside of the scan the buffer is empty, and stays so. -/
theorem rests (refines : Refines engine merge) (sound : engine.Sound) {events : List Event}
    (outside : engine.pc.buffering = false)
    (trace : next.shared.trace = engine.shared.trace ++ events)
    (aside : ∀ event ∈ events, event.aside) (unpolled : .polled ∉ events)
    (tso : next.tso = engine.tso) (leftover : next.leftover = engine.leftover)
    (shows : next.Shows merge) : Simulated size engine next merge merge .other := by
  refine refines.unseen trace aside unpolled ?_ leftover shows (reads_none fun i tsoTs walks => ?_)
  · rw [tso, sound.tracked.buffered outside, List.map_nil, List.map_nil]
  · rw [walks] at outside
    cases outside

theorem reaps (refines : Refines engine merge) (sound : engine.Sound) {i : Nat}
    {entry : IndexEntry} {ring : RingId} (place : engine.pc = .kill i)
    (found : engine.index[i]? = some entry) (valid : entry.ring = some ring) :
    Simulated size engine (engine.killOrphan i true) merge merge .other := by
  have reaping : engine.pc.Reaping i := by
    rw [place]
    rfl
  obtain ⟨closed, done, stage⟩ := refines.reaped reaping
  rw [killOrphan_eq found valid]
  have ringAt := ringAt_setEntry found { entry with ring := none, pit := ⟨0, 0⟩ } rfl
  refine refines.unseen rfl (List.forall_mem_singleton.mpr rfl) (by simp) ?_ rfl
    ⟨closed, ?_, stage⟩ (reads_none (not_walking_of_reaping reaping))
  · refine List.map_congr_left fun te member => ?_
    have different := (sound.tracked.clean i place).1 te member
    rw [stamped, stamped]
    exact congrArg (·.getD 0, _) ((ringAt te.tag).trans (if_neg different))
  · intro j below owner owns
    have kept := (ringAt j).symm.trans owns
    split at kept
    · cases kept
    · exact done j below owner kept

theorem step (refines : Refines engine merge) {std : StdSort} {sources : Finset RingId}
    (faithful : Merge.Faithful sources merge) (sound : engine.Sound) (roomy : engine.Roomy size)
    (enabled : engine.tsoDisabled = false)
    (delivering : ∀ ring i, engine.ringAt i = some ring → engine.Delivering ring)
    (rising : ∀ ring i, engine.ringAt i = some ring → Rising (engine.shared.committed ring))
    (shape : engine.EngineStep std next) :
    ∃ after move, Simulated size engine next merge after move := by
  have shows := refines.shows
  have start (state : Engine) : state.Done 0 [] := fun _ below => absurd below (Nat.not_lt_zero _)
  cases shape with
  | polled place =>
      obtain ⟨after, simulated⟩ := @polls engine merge size refines place
      exact ⟨after, _, simulated⟩
  | unlocked place =>
      rw [Shows, place] at shows
      exact ⟨merge, _, refines.rests sound (by rw [place]; rfl) (List.append_nil _).symm
        (List.forall_mem_nil _) List.not_mem_nil rfl rfl ⟨[], start _, shows⟩⟩
  | rebuilt place =>
      rw [Shows, place] at shows
      exact ⟨merge, _, refines.rests sound (by rw [place]; rfl) rfl
        (List.forall_mem_singleton.mpr rfl) (by simp) rfl rfl ⟨[], start _, shows⟩⟩
  | @skipped i entry place found invalid =>
      obtain ⟨closed, done, stage⟩ := refines.scanned place
      have past : engine.Done (i + 1) closed := by
        intro j below ring owns
        rcases Nat.lt_succ_iff_lt_or_eq.mp below with before | rfl
        · exact done j before ring owns
        · obtain ⟨other, read, valid⟩ := ringAt_eq_some.mp owns
          rw [← Option.some.inj (found.symm.trans read), invalid] at valid
          cases valid
      exact ⟨merge, _, refines.scans (List.append_nil _).symm (List.forall_mem_nil _)
        List.not_mem_nil rfl rfl rfl (reads_at place (by simp))
        past stage (.inl rfl)⟩
  | exhausted _ _ disabled => exact absurd (enabled.symm.trans disabled) Bool.false_ne_true
  | flushing place past _ =>
      obtain ⟨after, simulated⟩ := refines.settles std place past roomy.capacity
      exact ⟨after, _, simulated⟩
  | @reset i entry ring place found valid =>
      rw [if_neg (by rw [enabled]; exact Bool.false_ne_true)]
      obtain ⟨after, simulated⟩ := @opens engine merge size refines i entry ring sound place found
        valid
      exact ⟨after, _, simulated⟩
  | @walked i tsoTs entry ring passed place here =>
      obtain ⟨after, simulated⟩ := @closes engine merge size refines sound i passed tsoTs entry ring
        (delivering ring i (ringAt_eq_some.mpr ⟨entry, here.found, here.valid⟩)) place here
      exact ⟨after, _, simulated⟩
  | @pushed i tsoTs entry ring passed limit place here more room =>
      have indexed : engine.ringAt i = some ring :=
        ringAt_eq_some.mpr ⟨entry, here.found, here.valid⟩
      obtain ⟨after, simulated⟩ := refines.takes sound roomy (delivering ring i indexed)
        (rising ring i indexed) place here more
      exact ⟨after, _, simulated⟩
  | @filled i tsoTs entry ring passed limit place here more full =>
      have indexed : engine.ringAt i = some ring :=
        ringAt_eq_some.mpr ⟨entry, here.found, here.valid⟩
      obtain ⟨after, simulated⟩ := refines.fills std sound roomy (delivering ring i indexed)
        (rising ring i indexed) place here more full
      exact ⟨after, _, simulated⟩
  | @popped left caller te rest entry ring place entries found valid _ =>
      have indexed : engine.ringAt te.tag = some ring := ringAt_eq_some.mpr ⟨entry, found, valid⟩
      obtain ⟨after, simulated⟩ := @pops engine merge size refines sources faithful sound left caller
        te rest entry ring (delivering ring te.tag indexed) place entries found valid
      exact ⟨after, _, simulated⟩
  | returned place past => exact refines.returns place past
  | drained place _ _ | drainCommitted place _ =>
      rw [Shows, place] at shows
      exact shows.elim
  | passedOver place =>
      obtain ⟨closed, done, stage⟩ := refines.reaped place
      exact ⟨merge, _, refines.scans (List.append_nil _).symm (List.forall_mem_nil _)
        List.not_mem_nil rfl rfl rfl (reads_none (not_walking_of_reaping place)) done stage (.inl rfl)⟩
  | @orphaned i _ place _ _ =>
      have reaping : engine.pc.Reaping i := by
        rw [place]
        rfl
      obtain ⟨closed, done, stage⟩ := refines.reaped reaping
      exact ⟨merge, _, refines.scans rfl (List.forall_mem_singleton.mpr rfl)
        (by simp) rfl rfl rfl (reads_none (not_walking_of_reaping reaping)) done stage (.inr rfl)⟩
  | @emptied i _ place _ _ =>
      have reaping : engine.pc.Reaping i := by
        rw [place]
        rfl
      obtain ⟨closed, done, stage⟩ := refines.reaped reaping
      exact ⟨merge, _, refines.scans (List.append_nil _).symm (List.forall_mem_nil _)
        List.not_mem_nil rfl rfl rfl (reads_none (not_walking_of_reaping reaping)) done stage (.inr rfl)⟩
  | reaped place found valid => exact ⟨merge, _, refines.reaps sound place found valid⟩
  | released place =>
      rw [Shows, place] at shows
      obtain ⟨closed, done, stage⟩ := shows
      exact ⟨merge, _, refines.scans (List.append_nil _).symm (List.forall_mem_nil _)
        List.not_mem_nil rfl rfl rfl (reads_at place (by simp))
        done stage (.inl rfl)⟩
  | committed place _ _ _ _ | untouched place _ _ | settled place _ | finished place =>
      rw [Shows, place] at shows
      exact ⟨merge, _, refines.rests sound (by rw [place]; rfl) (List.append_nil _).symm
        (List.forall_mem_nil _) List.not_mem_nil rfl rfl shows⟩

theorem grows (refines : Refines engine merge) {shared : Shared}
    (step : Shared.ClientStep engine.shared shared) :
    Merge.Step size (size / 8) merge .other
      { merge with queued := fun ring => (shared.committed ring).map timeOf } := by
  refine .grown fun ring => ?_
  rw [refines.queued]
  exact (step.committed_prefix ring).map timeOf

/-- What a client commits is queued. -/
theorem client (refines : Refines engine merge) (sound : engine.Sound) {shared : Shared}
    (step : Shared.ClientStep engine.shared shared) :
    Refines { engine with shared }
      { merge with queued := fun ring => (shared.committed ring).map timeOf } := by
  obtain ⟨events, trace, byClient⟩ := step.trace
  have grown (ring : RingId) : merge.queued ring <+: (shared.committed ring).map timeOf := by
    rw [refines.queued]
    exact (step.committed_prefix ring).map timeOf
  refine ⟨fun _ => rfl, fun ring => ?_, ?_, refines.buffer, refines.leftover, ?_⟩
  · exact (refines.emitted ring).trans (congrArg List.length (step.flushed ring)).symm
  · change merge.output = (flushedAll shared.trace).map timeOf
    rw [trace, flushedAll_append, flushedAll_byClient byClient, List.append_nil, refines.output]
  · refine refines.shows.frame rfl rfl rfl fun reading => ?_
    exact reading.frame rfl (fun entry found => ⟨entry, found, rfl, rfl⟩) (step.same _).capacity
      (step.popped (sound.tracked.spanned _)) (step.committed_prefix _).length_le (Nat.le_refl _)
      (grown _)

end Refines

/-- What the engine thread reads when it is its turn. -/
def readBy (engine : Engine) : Action → List (RingId × Record)
  | .engine _ => engine.reads.toList
  | .client _ => []

/-- An action is a step of the merge. -/
structure Advanced (std : StdSort) (size : Nat) (engine : Engine) (action : Action)
    (merge after : Merge RingId Nat) (move : Move RingId) : Prop where
  step : Merge.Step size (size / 8) merge move after
  refines : Refines (engine.act std action) after
  logged : ∃ events, (engine.act std action).shared.trace = engine.shared.trace ++ events ∧
    Logged move events
  read : ∀ ring record, (ring, record) ∈ engine.readBy action ↔
    move = .taken ring ∧ (engine.shared.committed ring)[merge.reach ring]? = some record
  taken : ∀ ring, move = .taken ring → (∃ i, engine.ringAt i = some ring) ∧
    .tsoPush merge.buffer.length ∈ (engine.act std action).shared.trace

theorem Refines.act (refines : Refines engine merge) (std : StdSort) (action : Action) {size : Nat}
    {sources : Finset RingId} (faithful : Merge.Faithful sources merge) (sound : engine.Sound)
    (roomy : engine.Roomy size) (enabled : engine.tsoDisabled = false)
    (delivering : ∀ ring i, engine.ringAt i = some ring → engine.Delivering ring)
    (rising : ∀ ring i, engine.ringAt i = some ring → Rising (engine.shared.committed ring)) :
    ∃ after move, Advanced std size engine action merge after move := by
  cases action with
  | client op =>
      have client := engine.shared.apply_step op
      obtain ⟨events, trace, byClient⟩ := client.trace
      refine ⟨_, .other, refines.grows client, refines.client sound client,
        ⟨events, trace, fun member => ?_⟩, fun _ _ => ?_, fun _ takes => (by cases takes)⟩
      · cases byClient _ member
      · exact ⟨fun member => (by cases member), fun both => (by cases both.1)⟩
  | engine trylock =>
      obtain ⟨after, move, simulated⟩ := refines.step faithful sound roomy enabled delivering rising
        (sound.tracked.shape std trylock)
      refine ⟨after, move, simulated.step, simulated.refines, simulated.logged, fun ring record => ?_,
        simulated.taken⟩
      rw [readBy, Option.mem_toList]
      exact simulated.read ring record

/-- Nothing was queued yet. -/
theorem create_refines (capacity : UInt32) (tsoDisabled : Bool) (timesource : UInt64)
    (rings : RingId → RingObj) :
    (create capacity tsoDisabled timesource rings).Refines .start :=
  ⟨fun _ => rfl, fun _ => rfl, rfl, rfl, rfl, rfl⟩

end Engine

end Hogl.Polling
