import Hogl.Engine.Engine

namespace Hogl.Polling

open Hogl.Data Hogl.Ring

/-! # What a client step can do

Each property of a client step is stated once, for every operation and every
ring; the invariants of the engine cite these lemmas and never unfold an
operation.
-/

/-! ## Traces -/

theorem committedTo_append (ring : RingId) (first second : List Event) :
    committedTo ring (first ++ second) = committedTo ring first ++ committedTo ring second :=
  List.filterMap_append

theorem flushedTo_append (ring : RingId) (first second : List Event) :
    flushedTo ring (first ++ second) = flushedTo ring first ++ flushedTo ring second :=
  List.filterMap_append

theorem committedTo_silent {ring : RingId} {events : List Event}
    (silent : ∀ event ∈ events, ∀ record, event ≠ .committed ring record) :
    committedTo ring events = [] := by
  rw [committedTo, List.filterMap_eq_nil_iff]
  intro event member
  have other := silent event member
  cases event with
  | committed owner record => exact if_neg fun same => other record (by rw [same])
  | _ => rfl

theorem flushedTo_silent {ring : RingId} {events : List Event}
    (silent : ∀ event ∈ events, ∀ record, event ≠ .flushed ring record) :
    flushedTo ring events = [] := by
  rw [flushedTo, List.filterMap_eq_nil_iff]
  intro event member
  have other := silent event member
  cases event with
  | flushed owner record => exact if_neg fun same => other record (by rw [same])
  | _ => rfl

/-- The events that only client steps log. -/
def Event.byClient : Event → Bool
  | .registered _ | .acquired _ | .begun _ | .reserved _ | .committed _ _ | .dropped _
  | .returned _ _ | .unwaited _ => true
  | _ => false

/-- The client events that neither add a record nor take a reference. -/
def Event.quiet : Event → Bool
  | .begun _ | .reserved _ | .returned _ _ | .unwaited _ => true
  | _ => false

theorem Event.quiet.byClient {event : Event} (quiet : event.quiet) : event.byClient := by
  cases event <;> simp [Event.quiet, Event.byClient] at quiet ⊢

theorem committedTo_quiet {events : List Event} (quiet : ∀ event ∈ events, event.quiet)
    (ring : RingId) : committedTo ring events = [] := by
  apply committedTo_silent
  rintro event member record rfl
  cases quiet _ member

theorem flushedTo_byClient {events : List Event} (byClient : ∀ event ∈ events, event.byClient)
    (ring : RingId) : flushedTo ring events = [] := by
  apply flushedTo_silent
  rintro event member record rfl
  cases byClient _ member

theorem committedTo_byEngine {events : List Event}
    (byEngine : ∀ event ∈ events, event.byClient = false) (ring : RingId) :
    committedTo ring events = [] := by
  apply committedTo_silent
  rintro event member record rfl
  cases byEngine _ member

namespace Shared

variable {shared : Shared}

@[simp] theorem log_rings (event : Event) : (shared.log event).rings = shared.rings := rfl

@[simp] theorem log_ringMap (event : Event) : (shared.log event).ringMap = shared.ringMap := rfl

@[simp] theorem log_dirty (event : Event) : (shared.log event).dirty = shared.dirty := rfl

@[simp] theorem log_unmarked (event : Event) : (shared.log event).unmarked = shared.unmarked := rfl

@[simp] theorem log_trace (event : Event) :
    (shared.log event).trace = shared.trace ++ [event] := rfl

@[simp] theorem setRing_trace (ring : RingId) (obj : RingObj) :
    (shared.setRing ring obj).trace = shared.trace := rfl

@[simp] theorem setRing_ringMap (ring : RingId) (obj : RingObj) :
    (shared.setRing ring obj).ringMap = shared.ringMap := rfl

@[simp] theorem setRing_dirty (ring : RingId) (obj : RingObj) :
    (shared.setRing ring obj).dirty = shared.dirty := rfl

@[simp] theorem setRing_unmarked (ring : RingId) (obj : RingObj) :
    (shared.setRing ring obj).unmarked = shared.unmarked := rfl

theorem setRing_rings (ring other : RingId) (obj : RingObj) :
    (shared.setRing ring obj).rings other = if other = ring then obj else shared.rings other := by
  simp only [setRing, Function.update_apply]

theorem setRing_ring {target : RingId} {obj : RingObj}
    (kept : obj.ring = (shared.rings target).ring) (ring : RingId) :
    ((shared.setRing target obj).rings ring).ring = (shared.rings ring).ring := by
  rw [setRing_rings]
  split
  · rename_i equal
    rw [equal, kept]
  · rfl

theorem hold_ring (target ring : RingId) :
    ((shared.hold target).rings ring).ring = (shared.rings ring).ring :=
  setRing_ring (by rfl) ring

theorem release_ring (target ring : RingId) :
    ((shared.release target).rings ring).ring = (shared.rings ring).ring :=
  setRing_ring (by rfl) ring

theorem register_ring (target : RingId) (timesource : UInt64) (ring : RingId) :
    ((shared.register target timesource).rings ring).ring = (shared.rings ring).ring :=
  setRing_ring (by rfl) ring

/-! ## One ring -/

/-- How a client step moves a ring: it may fill the slot at the tail and
count, or it commits that slot. -/
inductive Moved (before after : Shared) (ring : RingId) : Prop where
  | kept (value : Record) (seqnum dropcnt : UInt64)
      (ringEq : (after.rings ring).ring =
        { (before.rings ring).ring.store (before.rings ring).ring.tail value with
          seqnum, dropcnt })
      (committedEq : after.committed ring = before.committed ring)
  | pushed
      (room : (before.rings ring).ring.head ≠ (before.rings ring).ring.tail)
      (ringEq : (after.rings ring).ring = (before.rings ring).ring.commitTail
        (((before.rings ring).ring.tail + 1) &&& (before.rings ring).ring.capacity))
      (committedEq : after.committed ring = before.committed ring ++
        [(before.rings ring).ring.slots (before.rings ring).ring.tail])

/-- What no client step changes in a ring. -/
structure SameRing (before after : RingObj) : Prop where
  capacity : after.ring.capacity = before.ring.capacity
  head : after.ring.head = before.ring.head
  blocking : after.ring.blocking = before.ring.blocking
  name : after.name = before.name
  prio : after.prio = before.prio
  immortal : after.immortal = before.immortal

theorem store_self {α : Type} (ring : Ringbuf α) (slot : UInt32) :
    ring.store slot (ring.slots slot) = ring := by
  have same : (fun index => if index = slot then ring.slots slot else ring.slots index) =
      ring.slots := by
    funext index
    split
    · rename_i equal
      rw [equal]
    · rfl
  simp only [Ringbuf.store, same]

theorem Moved.of_ring_eq {before after : Shared} {ring : RingId}
    (ringEq : (after.rings ring).ring = (before.rings ring).ring)
    (committedEq : after.committed ring = before.committed ring) : Moved before after ring :=
  .kept _ (before.rings ring).ring.seqnum (before.rings ring).ring.dropcnt
    (by rw [store_self, ringEq]) committedEq

theorem committed_log {event : Event} (ring : RingId)
    (other : ∀ record, event ≠ .committed ring record) :
    (shared.log event).committed ring = shared.committed ring := by
  rw [committed, committed, log_trace, committedTo_append, List.append_right_eq_self]
  cases event with
  | committed owner record =>
      have different : owner ≠ ring := fun same => other record (by rw [same])
      simp [committedTo, different]
  | _ => rfl

/-- A step that rewrites one ring object moves the rings as it moves that one. -/
theorem Moved.of_setRing {target ring : RingId} {obj : RingObj} {event : Event}
    (other : ∀ record, event ≠ .committed ring record)
    (value : Record) (seqnum dropcnt : UInt64)
    (ringEq : obj.ring = { (shared.rings target).ring.store (shared.rings target).ring.tail value
      with seqnum, dropcnt }) :
    Moved shared ((shared.setRing target obj).log event) ring := by
  have committedEq : ((shared.setRing target obj).log event).committed ring =
      shared.committed ring := committed_log ring other
  by_cases same : ring = target
  · subst target
    apply Moved.kept value seqnum dropcnt _ committedEq
    rw [log_rings, setRing_rings, if_pos rfl, ringEq]
  · apply Moved.of_ring_eq _ committedEq
    rw [log_rings, setRing_rings, if_neg same]

theorem pushCommit_cases (shared : Shared) (ring : RingId) (next : Writer) :
    shared.pushCommit ring next = shared ∨
    ((shared.rings ring).ring.head ≠ (shared.rings ring).ring.tail ∧
      shared.pushCommit ring next = (shared.setRing ring { shared.rings ring with
        ring := (shared.rings ring).ring.commitTail
          (((shared.rings ring).ring.tail + 1) &&& (shared.rings ring).ring.capacity)
        writer := next }).log
          (.committed ring ((shared.rings ring).ring.slots (shared.rings ring).ring.tail))) ∨
    ((shared.rings ring).ring.head = (shared.rings ring).ring.tail ∧
      shared.pushCommit ring next = (shared.setRing ring { shared.rings ring with
        ring := (shared.rings ring).ring.incDropcnt
        writer := next }).log (.dropped ring)) := by
  by_cases full : (shared.rings ring).ring.head = (shared.rings ring).ring.tail
  · by_cases blocking : (shared.rings ring).ring.blocking = true
    · exact .inl (by simp [pushCommit, Ringbuf.pushCommit, full, blocking])
    · exact .inr (.inr ⟨full, by simp [pushCommit, Ringbuf.pushCommit, full, blocking]⟩)
  · exact .inr (.inl ⟨full, by simp [pushCommit, Ringbuf.pushCommit, full]⟩)

theorem pushCommit_moved (target ring : RingId) (next : Writer) :
    Moved shared (shared.pushCommit target next) ring := by
  rcases shared.pushCommit_cases target next with same | ⟨room, result⟩ | ⟨_, result⟩
  · rw [same]
    exact .of_ring_eq rfl rfl
  · rw [result]
    by_cases same : ring = target
    · subst target
      apply Moved.pushed room
      · rw [log_rings, setRing_rings, if_pos rfl]
      · rw [committed, log_trace, setRing_trace, committedTo_append]
        simp [committed, committedTo]
    · apply Moved.of_ring_eq
      · rw [log_rings, setRing_rings, if_neg same]
      · apply committed_log
        intro record equal
        exact same (Event.committed.inj equal).1.symm
  · rw [result]
    refine .of_setRing (by simp) ((shared.rings target).ring.slots (shared.rings target).ring.tail)
      (shared.rings target).ring.seqnum ((shared.rings target).ring.dropcnt + 1) ?_
    rw [store_self]
    rfl

/-! ## Every operation -/

/-- The shapes a client step can have. -/
inductive ClientStep (before : Shared) : Shared → Prop where
  | flags (dropmark tsofullmark : Bool) : ClientStep before { before with dropmark, tsofullmark }
  | marked {ring : RingId} (member : ring ∈ before.unmarked) :
      ClientStep before { before with dirty := true, unmarked := before.unmarked.erase ring }
  | wrote {ring : RingId} (held : (before.rings ring).clients ≠ 0) (value : Record)
      (seqnum : UInt64) (writer : Writer) {events : List Event}
      (quiet : ∀ event ∈ events, event.quiet) :
      ClientStep before
        { before.setRing ring { before.rings ring with
            ring := { (before.rings ring).ring.store (before.rings ring).ring.tail value with
              seqnum }
            writer } with trace := before.trace ++ events }
  | pushed {ring : RingId} (held : (before.rings ring).clients ≠ 0) (next : Writer) :
      ClientStep before (before.pushCommit ring next)
  | addedNamed {ring : RingId} (held : (before.rings ring).clients ≠ 0)
      (absent : before.findRing (before.rings ring).name = none) :
      ClientStep before { before.register ring (before.rings ring).timesource with
        unmarked := ring :: before.unmarked }
  | adopted {ring existing : RingId} (held : (before.rings ring).clients ≠ 0)
      (outside : ring ∉ before.ringMap) (found : existing ∈ before.ringMap) :
      ClientStep before ((before.hold existing).release ring)
  | addedRing {ring : RingId} (absent : before.findRing (before.rings ring).name = none) :
      ClientStep before { before.register ring before.timesource with dirty := true }
  | held (ring : RingId) : ClientStep before (before.hold ring)
  | released {ring : RingId} (held : (before.rings ring).clients ≠ 0) :
      ClientStep before (before.release ring)

theorem ClientStep.refl (shared : Shared) : ClientStep shared shared :=
  .flags shared.dropmark shared.tsofullmark

/-- A writer that only moves on leaves the slot at the tail as it is. -/
theorem ClientStep.moveOn {ring : RingId} (held : (shared.rings ring).clients ≠ 0)
    (writer : Writer) {event : Event} (quiet : event.quiet) :
    ClientStep shared ((shared.setRing ring { shared.rings ring with writer }).log event) := by
  have wrote := ClientStep.wrote held ((shared.rings ring).ring.slots (shared.rings ring).ring.tail)
    (shared.rings ring).ring.seqnum writer (List.forall_mem_singleton.mpr quiet)
  rwa [store_self] at wrote

theorem leave_step (ring : RingId) {event : Event} (quiet : event.quiet) :
    ClientStep shared (shared.leave ring event) := by
  simp only [leave]
  split
  · split
    · exact .refl shared
    · rename_i held
      exact .moveOn held .idle quiet
  · exact .refl shared

theorem apply_step (shared : Shared) (op : Op) : ClientStep shared (shared.apply op) := by
  cases op with
  | addNamed ring =>
      simp only [apply]
      split
      · exact .refl shared
      · rename_i enabled
        have held : (shared.rings ring).clients ≠ 0 := fun none => enabled (.inl none)
        split
        · rename_i absent
          exact .addedNamed held absent
        · rename_i existing found
          exact .adopted held (fun inside => enabled (.inr inside)) (List.mem_of_find?_eq_some found)
  | markDirty ring =>
      simp only [apply]
      split
      · rename_i member
        exact .marked member
      · exact .refl shared
  | addRing ring =>
      simp only [apply]
      split
      · exact .refl shared
      · split
        · rename_i absent
          exact .addedRing absent
        · exact .refl shared
  | hold ring =>
      simp only [apply]
      split
      · exact .held ring
      · exact .refl shared
  | release ring =>
      simp only [apply]
      split
      · exact .refl shared
      · rename_i held
        exact .released held
  | begin ring record =>
      simp only [apply]
      split
      · exact .refl shared
      · rename_i enabled
        exact .wrote (fun none => enabled (.inl none)) _ _ .filled
          (List.forall_mem_singleton.mpr rfl)
  | finish ring =>
      simp only [apply]
      split
      · exact .refl shared
      · rename_i enabled
        exact .pushed (fun none => enabled (.inl none)) .idle
  | reserve ring =>
      simp only [apply]
      split
      · exact .refl shared
      · rename_i enabled
        have wrote := ClientStep.wrote (fun none => enabled (.inl none))
          ((shared.rings ring).ring.slots (shared.rings ring).ring.tail)
          ((shared.rings ring).ring.seqnum + 1) (.reserved (shared.rings ring).ring.seqnum)
          (List.forall_mem_singleton.mpr (show (Event.reserved ring).quiet from rfl))
        rwa [store_self] at wrote
  | giveUp ring =>
      simp only [apply]
      split
      · split
        · exact .refl shared
        · rename_i enabled
          exact .moveOn (fun none => enabled (.inl none)) .idle rfl
      · exact .refl shared
  | arm ring timestamp type arg1 arg2 =>
      simp only [apply]
      split
      · rename_i seqnum _
        split
        · exact .refl shared
        · rename_i enabled
          have wrote := ClientStep.wrote (fun none => enabled (.inl none))
            (({ (shared.rings ring).ring.slots (shared.rings ring).ring.pushBegin with
              timestamp, seqnum := BitVec.ofNat 52 seqnum.toNat } : Record).makeSpecial
                type arg1 arg2)
            (shared.rings ring).ring.seqnum .armed (List.forall_mem_nil _)
          rwa [List.append_nil] at wrote
      · exact .refl shared
  | publish ring =>
      simp only [apply]
      split
      · exact .refl shared
      · rename_i enabled
        exact .pushed (fun none => enabled (.inl none)) _
  | observe ring =>
      simp only [apply]
      split
      · split
        · exact .refl shared
        · rename_i enabled
          exact .moveOn (fun none => enabled (.inl none)) .idle rfl
      · exact .refl shared
  | abandon ring => exact leave_step ring rfl
  | skipWait ring => exact leave_step ring rfl
  | mask dropmark tsofullmark => exact .flags dropmark tsofullmark

theorem insertKey_perm (ring : RingId) (keys : List RingId) :
    (shared.insertKey ring keys).Perm (ring :: keys) := by
  induction keys with
  | nil => exact .refl _
  | cons first rest ih =>
      simp only [insertKey]
      split
      · exact .refl _
      · exact (ih.cons first).trans (.swap ring first rest)

/-- No two rings of the map share a name. -/
structure Keyed (shared : Shared) : Prop where
  nodup : shared.ringMap.Nodup
  names : ∀ ring ∈ shared.ringMap, ∀ other ∈ shared.ringMap,
    (shared.rings ring).name = (shared.rings other).name → ring = other

theorem Keyed.findRing {ring : RingId} (keyed : shared.Keyed) (member : ring ∈ shared.ringMap) :
    shared.findRing (shared.rings ring).name = some ring := by
  rw [Shared.findRing]
  cases found : shared.ringMap.find? fun other =>
      (shared.rings other).name = (shared.rings ring).name with
  | none => simpa using List.find?_eq_none.mp found ring member
  | some other =>
      have same : (shared.rings other).name = (shared.rings ring).name := by
        simpa using List.find?_some found
      rw [keyed.names other (List.mem_of_find?_eq_some found) ring member same]

theorem not_mem_of_absent {ring : RingId}
    (absent : shared.findRing (shared.rings ring).name = none) : ring ∉ shared.ringMap := by
  intro member
  simpa using List.find?_eq_none.mp absent ring member

theorem apply_addNamed_absent {ring : RingId} (held : (shared.rings ring).clients ≠ 0)
    (absent : shared.findRing (shared.rings ring).name = none) : shared.apply (.addNamed ring) =
      { shared.register ring (shared.rings ring).timesource with
        unmarked := ring :: shared.unmarked } := by
  have enabled : ¬ ((shared.rings ring).clients = 0 ∨ ring ∈ shared.ringMap) :=
    fun either => either.elim held (not_mem_of_absent absent)
  simp only [apply, if_neg enabled, absent]
  rfl

theorem apply_addNamed_found {ring existing : RingId} (held : (shared.rings ring).clients ≠ 0)
    (outside : ring ∉ shared.ringMap)
    (found : shared.findRing (shared.rings ring).name = some existing) :
    shared.apply (.addNamed ring) = (shared.hold existing).release ring := by
  have enabled : ¬ ((shared.rings ring).clients = 0 ∨ ring ∈ shared.ringMap) :=
    fun either => either.elim held outside
  simp only [apply, if_neg enabled, found]

/-- The reference the engine holds on a registered ring. -/
def owned (shared : Shared) (ring : RingId) : Nat := if ring ∈ shared.ringMap then 1 else 0

namespace ClientStep

variable {before after : Shared} (client : ClientStep before after)

include client

theorem trace : ∃ events, after.trace = before.trace ++ events ∧
    ∀ event ∈ events, event.byClient := by
  cases client with
  | flags | marked | released => exact ⟨[], by simp [release], by simp⟩
  | @wrote _ _ _ _ _ events quiet => exact ⟨events, rfl, fun event member => Event.quiet.byClient (quiet event member)⟩
  | @pushed ring _ next =>
      rcases before.pushCommit_cases ring next with same | ⟨_, result⟩ | ⟨_, result⟩
      · exact ⟨[], by rw [same, List.append_nil], by simp⟩
      · exact ⟨_, by rw [result]; rfl, by simp [Event.byClient]⟩
      · exact ⟨_, by rw [result]; rfl, by simp [Event.byClient]⟩
  | @addedNamed ring => exact ⟨[.registered ring], rfl, by simp [Event.byClient]⟩
  | @adopted _ existing => exact ⟨[.acquired existing], rfl, by simp [Event.byClient]⟩
  | @addedRing ring => exact ⟨[.registered ring], rfl, by simp [Event.byClient]⟩
  | held ring => exact ⟨[.acquired ring], rfl, by simp [Event.byClient]⟩

theorem same (ring : RingId) : SameRing (before.rings ring) (after.rings ring) := by
  have unchanged : SameRing (before.rings ring) (before.rings ring) := ⟨rfl, rfl, rfl, rfl, rfl, rfl⟩
  have rewritten {target : RingId} {obj : RingObj} (same : SameRing (before.rings target) obj) :
      SameRing (before.rings ring) ((before.setRing target obj).rings ring) := by
    rw [setRing_rings]
    split
    · rename_i equal
      rwa [equal]
    · exact unchanged
  cases client with
  | flags | marked => exact unchanged
  | wrote => exact rewritten ⟨rfl, rfl, rfl, rfl, rfl, rfl⟩
  | @pushed target _ next =>
      rcases before.pushCommit_cases target next with result | ⟨_, result⟩ | ⟨_, result⟩
      · rwa [result]
      · rw [result]
        exact rewritten ⟨rfl, rfl, rfl, rfl, rfl, rfl⟩
      · rw [result]
        exact rewritten ⟨rfl, rfl, rfl, rfl, rfl, rfl⟩
  | addedNamed | addedRing | held | released => exact rewritten ⟨rfl, rfl, rfl, rfl, rfl, rfl⟩
  | @adopted target existing =>
      have held : SameRing (before.rings ring) ((before.hold existing).rings ring) :=
        rewritten ⟨rfl, rfl, rfl, rfl, rfl, rfl⟩
      rw [release, setRing_rings]
      split
      · rename_i equal
        subst equal
        exact ⟨held.capacity, held.head, held.blocking, held.name, held.prio, held.immortal⟩
      · exact held

theorem moved (ring : RingId) : Moved before after ring := by
  cases client with
  | flags | marked => exact .of_ring_eq rfl rfl
  | @wrote target _ value seqnum _ events quiet =>
      have committedEq : committedTo ring (before.trace ++ events) = before.committed ring := by
        rw [committedTo_append, committedTo_quiet quiet, List.append_nil, committed]
      by_cases same : ring = target
      · subst target
        refine Moved.kept value seqnum (before.rings ring).ring.dropcnt ?_ committedEq
        simp only [setRing_rings, if_true]
        rfl
      · refine Moved.of_ring_eq ?_ committedEq
        simp only [setRing_rings, if_neg same]
  | @pushed target _ next => exact pushCommit_moved target ring next
  | addedNamed | addedRing =>
      exact .of_ring_eq (register_ring _ _ ring) (committed_log ring (by simp))
  | held => exact .of_ring_eq (hold_ring _ ring) (committed_log ring (by simp))
  | released => exact .of_ring_eq (release_ring _ ring) rfl
  | adopted =>
      exact .of_ring_eq ((release_ring _ ring).trans (hold_ring _ ring))
        (committed_log ring (by simp))

theorem flushed (ring : RingId) : after.flushed ring = before.flushed ring := by
  obtain ⟨events, logged, byClient⟩ := client.trace
  rw [Shared.flushed, Shared.flushed, logged, flushedTo_append, flushedTo_byClient byClient,
    List.append_nil]

theorem committed_prefix (ring : RingId) : before.committed ring <+: after.committed ring := by
  cases client.moved ring with
  | kept _ _ _ _ committedEq => rw [committedEq]
  | pushed _ _ committedEq => rw [committedEq]; exact List.prefix_append _ _

theorem spans {ring : RingId} {consumed : Nat}
    (spans : (before.rings ring).ring.Spans consumed (before.committed ring).length) :
    (after.rings ring).ring.Spans consumed (after.committed ring).length := by
  cases client.moved ring with
  | kept value seqnum dropcnt ringEq committedEq =>
      rw [ringEq, committedEq]
      exact ⟨spans.isMask, spans.ordered, spans.bounded, spans.tail, spans.head⟩
  | pushed room ringEq committedEq =>
      rw [ringEq, committedEq, List.length_append, List.length_singleton]
      apply spans.commitTail
      have bounded := spans.bounded
      have notFull := mt spans.full_iff.mpr room
      omega

theorem stores {ring : RingId} {consumed lower : Nat}
    (spans : (before.rings ring).ring.Spans consumed (before.committed ring).length)
    (above : consumed ≤ lower) (stores : (before.rings ring).ring.Stores (before.committed ring) lower) :
    (after.rings ring).ring.Stores (after.committed ring) lower := by
  cases client.moved ring with
  | kept value seqnum dropcnt ringEq committedEq =>
      rw [ringEq, committedEq]
      exact stores.store_tail spans above value
  | pushed room ringEq committedEq =>
      rw [ringEq, committedEq]
      exact stores.commit spans _

/-- A ring nobody holds is not written to, and a step that takes a reference
to it says so. -/
theorem unheld {ring : RingId} (alone : (before.rings ring).clients = 0) :
    after.committed ring = before.committed ring ∧
    ((after.rings ring).clients = 0 ∨ after.trace = before.trace ++ [.acquired ring]) := by
  have elsewhere {target : RingId} {obj : RingObj} (held : (before.rings target).clients ≠ 0) :
      ((before.setRing target obj).rings ring).clients = 0 := by
    rw [setRing_rings, if_neg, alone]
    rintro rfl
    exact held alone
  cases client with
  | flags | marked => exact ⟨rfl, .inl alone⟩
  | @wrote target held _ _ _ events quiet =>
      refine ⟨?_, .inl (elsewhere held)⟩
      change committedTo ring (before.trace ++ events) = _
      rw [committedTo_append, committedTo_quiet quiet, List.append_nil, committed]
  | @pushed target held next =>
      have different : target ≠ ring := by
        rintro rfl
        exact held alone
      rcases before.pushCommit_cases target next with result | ⟨_, result⟩ | ⟨_, result⟩
      · rw [result]
        exact ⟨rfl, .inl alone⟩
      · rw [result]
        refine ⟨committed_log ring ?_, .inl (elsewhere held)⟩
        intro record equal
        exact different (Event.committed.inj equal).1
      · rw [result]
        exact ⟨committed_log ring (by simp), .inl (elsewhere held)⟩
  | addedNamed held _ => exact ⟨committed_log ring (by simp), .inl (elsewhere held)⟩
  | @addedRing target _ =>
      refine ⟨committed_log ring (by simp), .inl ?_⟩
      change ((before.setRing target _).rings ring).clients = 0
      rw [setRing_rings]
      split
      · rename_i equal
        rw [← equal, alone]
      · exact alone
  | held target =>
      refine ⟨committed_log ring (by simp), ?_⟩
      by_cases same : ring = target
      · exact .inr (by rw [same]; rfl)
      · refine .inl ?_
        change ((before.setRing target _).rings ring).clients = 0
        rw [setRing_rings, if_neg same, alone]
  | released held => exact ⟨rfl, .inl (elsewhere held)⟩
  | @adopted target existing held outside found =>
      refine ⟨committed_log ring (by simp), ?_⟩
      have different : ring ≠ target := by
        rintro rfl
        exact held alone
      by_cases same : ring = existing
      · exact .inr (by rw [same]; rfl)
      · refine .inl ?_
        rw [release, setRing_rings, if_neg different]
        change ((before.setRing existing _).rings ring).clients = 0
        rw [setRing_rings, if_neg same, alone]

theorem keyed (keyed : before.Keyed) : after.Keyed := by
  have names (ring : RingId) : (after.rings ring).name = (before.rings ring).name :=
    (client.same ring).name
  have unchanged (same : after.ringMap = before.ringMap) : after.Keyed := by
    refine ⟨same ▸ keyed.nodup, ?_⟩
    simp only [names, same]
    exact keyed.names
  have inserted {ring : RingId} (same : after.ringMap = before.insertKey ring before.ringMap)
      (absent : before.findRing (before.rings ring).name = none) : after.Keyed := by
    have perm := before.insertKey_perm ring before.ringMap
    have fresh (other : RingId) (member : other ∈ before.ringMap) :
        (before.rings other).name ≠ (before.rings ring).name := by
      simpa using List.find?_eq_none.mp absent other member
    refine ⟨?_, ?_⟩
    · rw [same, perm.nodup_iff]
      exact List.nodup_cons.mpr ⟨not_mem_of_absent absent, keyed.nodup⟩
    · simp only [names, same, perm.mem_iff, List.mem_cons]
      rintro first (rfl | member) second (rfl | member') equal
      · rfl
      · exact absurd equal.symm (fresh second member')
      · exact absurd equal (fresh first member)
      · exact keyed.names first member second member' equal
  cases client with
  | flags | marked | wrote | held | released | adopted => exact unchanged rfl
  | @pushed target _ next =>
      rcases before.pushCommit_cases target next with result | ⟨_, result⟩ | ⟨_, result⟩
      · exact unchanged (by rw [result])
      · exact unchanged (by rw [result]; rfl)
      · exact unchanged (by rw [result]; rfl)
  | addedNamed _ absent => exact inserted rfl absent
  | addedRing absent => exact inserted rfl absent

/-- A client step keeps the registered rings, and a ring it registers is
flagged. -/
theorem listed {ring : RingId} (member : ring ∈ after.ringMap) :
    ring ∈ before.ringMap ∨ after.dirty = true ∨ ring ∈ after.unmarked := by
  cases client with
  | flags | marked | wrote | held | released | adopted => exact .inl member
  | @pushed target _ next =>
      rcases before.pushCommit_cases target next with result | ⟨_, result⟩ | ⟨_, result⟩ <;>
        exact .inl (by rw [result] at member; exact member)
  | @addedNamed target =>
      rcases List.mem_cons.mp ((before.insertKey_perm target before.ringMap).mem_iff.mp member)
        with rfl | old
      · exact .inr (.inr List.mem_cons_self)
      · exact .inl old
  | addedRing => exact .inr (.inl rfl)

theorem registered_kept {ring : RingId} (member : ring ∈ before.ringMap) :
    ring ∈ after.ringMap := by
  cases client with
  | flags | marked | wrote | held | released | adopted => exact member
  | @pushed target _ next =>
      rcases before.pushCommit_cases target next with result | ⟨_, result⟩ | ⟨_, result⟩ <;>
        (rw [result]; exact member)
  | @addedNamed target | @addedRing target =>
      exact (before.insertKey_perm target before.ringMap).mem_iff.mpr (List.mem_cons_of_mem _ member)

theorem flagged {ring : RingId} (flagged : before.dirty = true ∨ ring ∈ before.unmarked) :
    after.dirty = true ∨ ring ∈ after.unmarked := by
  cases client with
  | flags | wrote | held | released | adopted => exact flagged
  | marked => exact .inl rfl
  | @pushed target _ next =>
      rcases before.pushCommit_cases target next with result | ⟨_, result⟩ | ⟨_, result⟩ <;>
        (rw [result]; exact flagged)
  | addedNamed => exact flagged.imp id (List.mem_cons_of_mem _)
  | addedRing => exact .inl rfl

/-- The references besides those of the clients: one for a registered ring,
and `extra` that the engine is about to give up. -/
theorem refs {ring : RingId} {extra : Nat}
    (counted : (before.rings ring).refcnt =
      (before.rings ring).clients + before.owned ring + extra) :
    (after.rings ring).refcnt = (after.rings ring).clients + after.owned ring + extra := by
  have rewritten {target : RingId} {obj : RingObj}
      (refcnt : obj.refcnt = (before.rings target).refcnt)
      (clients : obj.clients = (before.rings target).clients) :
      ((before.setRing target obj).rings ring).refcnt =
        ((before.setRing target obj).rings ring).clients + before.owned ring + extra := by
    rw [setRing_rings]
    split
    · rename_i equal
      rw [refcnt, clients, ← equal, counted]
    · exact counted
  have registered {target : RingId} {timesource : UInt64}
      (absent : before.findRing (before.rings target).name = none) :
      ((before.register target timesource).rings ring).refcnt =
        ((before.register target timesource).rings ring).clients +
          (before.register target timesource).owned ring + extra := by
    have outside := not_mem_of_absent absent
    have members : ring ∈ before.insertKey target before.ringMap ↔ ring ∈ target :: before.ringMap :=
      (before.insertKey_perm target before.ringMap).mem_iff
    rw [owned] at counted ⊢
    simp only [register, log_rings, setRing_rings, members, List.mem_cons]
    by_cases same : ring = target
    · subst target
      rw [if_neg outside] at counted
      simp only [if_true, true_or]
      omega
    · simpa only [same, if_false, false_or] using counted
  cases client with
  | flags | marked => exact counted
  | wrote => exact rewritten rfl rfl
  | @pushed target _ next =>
      rcases before.pushCommit_cases target next with result | ⟨_, result⟩ | ⟨_, result⟩
      · rwa [result]
      · rw [result]
        exact rewritten rfl rfl
      · rw [result]
        exact rewritten rfl rfl
  | addedNamed _ absent => exact registered absent
  | addedRing absent => exact registered absent
  | held target =>
      rw [show (before.hold target).owned ring = before.owned ring from rfl]
      simp only [hold, log_rings, setRing_rings]
      split
      · rename_i equal
        subst equal
        dsimp only
        omega
      · exact counted
  | @released target held =>
      rw [show (before.release target).owned ring = before.owned ring from rfl]
      simp only [release, setRing_rings]
      split
      · rename_i equal
        subst equal
        dsimp only
        omega
      · exact counted
  | @adopted target existing held outside found =>
      have different : target ≠ existing := by
        rintro rfl
        exact outside found
      rw [show ((before.hold existing).release target).owned ring = before.owned ring from rfl]
      simp only [release, hold, log_rings, setRing_rings]
      by_cases first : ring = target
      · subst first
        simp only [if_true, different, if_false]
        omega
      · by_cases second : ring = existing
        · subst second
          simp only [first, if_false, if_true]
          omega
        · simpa only [first, second, if_false] using counted

end ClientStep

end Shared

end Hogl.Polling
