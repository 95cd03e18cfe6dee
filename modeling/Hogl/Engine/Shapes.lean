import Hogl.Engine.Tracking

namespace Hogl.Polling

open Hogl.Data Hogl.Ring

/-! # The shapes of an engine step

From a state that keeps track of its rings, a step of the engine thread has
one of the shapes below, and none of them follows a null pointer.
-/

/-- The events of the engine that concern no record it hands over. -/
def Event.aside : Event → Bool
  | .polled | .indexed | .snapshot _ | .tsoPush _ | .tsoFull _ | .orphaned _ | .reaped _
  | .injected _ _ _ _ _ _ | .fault => true
  | _ => false

theorem Event.byClient_of_aside {event : Event} (aside : event.aside) :
    event.byClient = false := by
  cases event <;> trivial

theorem Event.aside_of_injected {event : Event} (injected : event.isInjected) : event.aside := by
  cases event <;> trivial

namespace Engine

variable (engine : Engine)

/-- The state in which `do_flush_tso` hands over the first of the entries. -/
def popTo (left : Nat) (caller : Caller) (rest : List TsoEntry) : Engine :=
  { engine with
    tso := { engine.tso with head := engine.tso.head + 1, entries := rest }
    pc := .doFlush left caller }

/-- Index entry `i` belongs to `ring`, and its iterator stands before position
`passed` of the records the ring had when it was reset. -/
structure AtRecord (i : Nat) (entry : IndexEntry) (ring : RingId) (passed limit : Nat) : Prop where
  found : engine.index[i]? = some entry
  valid : entry.ring = some ring
  stands : entry.pit.Stands (engine.obj ring).ring.capacity passed limit
  lower : engine.shared.popped ring ≤ passed
  upper : limit ≤ (engine.shared.committed ring).length

/-- The iterator of `entry` behind the record at position `passed`. -/
def beyond (entry : IndexEntry) (ring : RingId) (passed : Nat) : PopIterator :=
  { entry.pit with head := slotOf (engine.obj ring).ring.capacity passed }

/-- The TSO entry for the record at position `passed`. -/
def entryFor (i : Nat) (tsoTs : UInt64) (ring : RingId) (passed : Nat) : TsoEntry :=
  let slot := slotOf (engine.obj ring).ring.capacity passed
  ⟨adjust ((engine.obj ring).ring.slots slot).timestamp tsoTs, slot, i⟩

inductive EngineStep (std : StdSort) : Engine → Prop where
  | polled (place : engine.pc = .idle) : EngineStep std engine.processRings
  | unlocked (place : engine.pc = .rebuild) : EngineStep std (engine.goto (.scan 0))
  | rebuilt (place : engine.pc = .rebuild) :
      EngineStep std ((engine.rebuildRingIndex std).goto (.scan 0))
  | skipped {i : Nat} {entry : IndexEntry} (place : engine.pc = .scan i)
      (found : engine.index[i]? = some entry) (invalid : entry.ring = none) :
      EngineStep std (engine.goto (.scan (i + 1)))
  | exhausted {i : Nat} (place : engine.pc = .scan i) (past : engine.index[i]? = none)
      (disabled : engine.tsoDisabled = true) : EngineStep std (engine.goto .finish)
  | flushing {i : Nat} (place : engine.pc = .scan i) (past : engine.index[i]? = none)
      (enabled : engine.tsoDisabled = false) : EngineStep std (engine.flushTso std)
  | reset {i : Nat} {entry : IndexEntry} {ring : RingId} (place : engine.pc = .scan i)
      (found : engine.index[i]? = some entry) (valid : entry.ring = some ring) :
      EngineStep std
        (((engine.setEntry i { entry with pit := .reset (engine.obj ring).ring }).log
          (.snapshot ring)).goto (if engine.tsoDisabled then .drain i else .walk i 0))
  | walked {i : Nat} {tsoTs : UInt64} {entry : IndexEntry} {ring : RingId} {passed : Nat}
      (place : engine.pc = .walk i tsoTs) (here : engine.AtRecord i entry ring passed passed) :
      EngineStep std (engine.goto (.orphan i))
  | pushed {i : Nat} {tsoTs : UInt64} {entry : IndexEntry} {ring : RingId} {passed limit : Nat}
      (place : engine.pc = .walk i tsoTs) (here : engine.AtRecord i entry ring passed limit)
      (more : passed < limit) (room : engine.tso.tail + 1 ≠ engine.tso.capacity) :
      EngineStep std (engine.pushRecord i entry (engine.beyond entry ring passed)
        (engine.entryFor i tsoTs ring passed))
  | filled {i : Nat} {tsoTs : UInt64} {entry : IndexEntry} {ring : RingId} {passed limit : Nat}
      (place : engine.pc = .walk i tsoTs) (here : engine.AtRecord i entry ring passed limit)
      (more : passed < limit) (full : engine.tso.tail + 1 = engine.tso.capacity) :
      EngineStep std ((engine.pushRecord i entry (engine.beyond entry ring passed)
        (engine.entryFor i tsoTs ring passed)).flushFullTso std i
          (engine.entryFor i tsoTs ring passed).timestamp)
  | popped {left : Nat} {caller : Caller} {te : TsoEntry} {rest : List TsoEntry}
      {entry : IndexEntry} {ring : RingId} (place : engine.pc = .doFlush (left + 1) caller)
      (entries : engine.tso.entries = te :: rest) (found : engine.index[te.tag]? = some entry)
      (valid : entry.ring = some ring) (within : engine.shared.Within ring te.slot) :
      EngineStep std ((engine.popTo left caller rest).flushEntry te)
  | returned {left : Nat} {caller : Caller} (place : engine.pc = .doFlush left caller)
      (past : left = 0 ∨ engine.tso.entries = []) : EngineStep std (engine.flushReturn caller)
  | drained {i : Nat} {entry : IndexEntry} {ring : RingId} {passed limit : Nat}
      (place : engine.pc = .drain i) (here : engine.AtRecord i entry ring passed limit)
      (more : passed < limit) :
      EngineStep std (Engine.flushRecord
        (engine.setEntry i { entry with pit := engine.beyond entry ring passed }) ring
        (slotOf (engine.obj ring).ring.capacity passed))
  | drainCommitted {i : Nat} {entry : IndexEntry} {ring : RingId} {passed : Nat}
      (place : engine.pc = .drain i) (here : engine.AtRecord i entry ring passed passed) :
      EngineStep std ((engine.commitPit i entry ring entry.pit).goto (.orphan i))
  | passedOver {i : Nat} (place : engine.pc.Reaping i) :
      EngineStep std (engine.goto (.scan (i + 1)))
  | orphaned {i : Nat} {ring : RingId} (place : engine.pc = .orphan i)
      (found : engine.ringAt i = some ring) (alone : (engine.obj ring).refcnt = 1) :
      EngineStep std ((engine.log (.orphaned ring)).goto (.empty i))
  | emptied {i : Nat} {ring : RingId} (place : engine.pc = .empty i)
      (found : engine.ringAt i = some ring) (empty : (engine.obj ring).ring.empty = true) :
      EngineStep std (engine.goto (.kill i))
  | reaped {i : Nat} {entry : IndexEntry} {ring : RingId} (place : engine.pc = .kill i)
      (found : engine.index[i]? = some entry) (valid : entry.ring = some ring) :
      EngineStep std (engine.killOrphan i true)
  | released {i : Nat} {ring : RingId} (place : engine.pc = .release i ring) :
      EngineStep std (engine.releaseOrphan i ring)
  | committed {i : Nat} {entry : IndexEntry} {ring : RingId} {slot : UInt32}
      (place : engine.pc = .commit i) (found : engine.index[i]? = some entry)
      (last : entry.lastrec = some slot) (valid : entry.ring = some ring)
      (within : engine.shared.Within ring slot) :
      EngineStep std
        ((engine.commitPit i entry ring (entry.pit.rewind slot)).goto (.commit (i + 1)))
  | untouched {i : Nat} {entry : IndexEntry} (place : engine.pc = .commit i)
      (found : engine.index[i]? = some entry) (none : entry.lastrec = none) :
      EngineStep std (engine.goto (.commit (i + 1)))
  | settled {i : Nat} (place : engine.pc = .commit i) (past : engine.index[i]? = none) :
      EngineStep std (engine.goto .finish)
  | finished (place : engine.pc = .finish) : EngineStep std (engine.goto .idle)

namespace Tracked

variable {engine : Engine}

theorem walk_shape (std : StdSort) {i : Nat} {tsoTs : UInt64} (tracked : engine.Tracked)
    (place : engine.pc = .walk i tsoTs) :
    engine.EngineStep std (engine.walkRing std i tsoTs) := by
  obtain ⟨entry, ring, found, valid, passed, limit, stands, lower, upper⟩ :=
    tracked.walking i (by rw [place]; rfl)
  have here : engine.AtRecord i entry ring passed limit := ⟨found, valid, stands, lower, upper⟩
  rw [walkRing, withRing_eq found valid, stands.next_eq (tracked.spanned ring).isMask]
  by_cases past : passed = limit
  · subst past
    simp only [if_true]
    exact .walked place here
  · have more : passed < limit := Nat.lt_of_le_of_ne stands.ordered past
    simp only [past, if_false]
    have tail : (engine.pushRecord i entry (engine.beyond entry ring passed)
        (engine.entryFor i tsoTs ring passed)).tso.full =
          (engine.tso.tail + 1 == engine.tso.capacity) := by
      simp only [pushRecord, Tsobuf.push, Tsobuf.full, Tsobuf.tail, List.length_append,
        List.length_singleton, Nat.add_assoc]
    split
    · rename_i full
      exact .filled place here more (beq_iff_eq.mp (tail.symm.trans full))
    · rename_i room
      exact .pushed place here more fun full => room (tail.trans (beq_iff_eq.mpr full))

theorem doFlush_shape (std : StdSort) {left : Nat} {caller : Caller} (tracked : engine.Tracked)
    (place : engine.pc = .doFlush left caller) :
    engine.EngineStep std (engine.doFlushTso left caller) := by
  cases entries : engine.tso.entries with
  | nil =>
      have nothing : engine.tso.pop = none := by simp only [Tsobuf.pop, entries]
      cases left <;>
      · simp only [doFlushTso, nothing]
        exact .returned place (.inr entries)
  | cons te rest =>
      cases left with
      | zero =>
          simp only [doFlushTso]
          exact .returned place (.inl rfl)
      | succ left =>
          have top : engine.tso.pop =
              some (te, { engine.tso with head := engine.tso.head + 1, entries := rest }) := by
            simp only [Tsobuf.pop, entries]
          obtain ⟨ring, tagged, within⟩ := tracked.tagged te (entries ▸ List.mem_cons_self)
          obtain ⟨entry, found, valid⟩ := ringAt_eq_some.mp tagged
          simp only [doFlushTso, top]
          exact .popped place entries found valid within

theorem drain_shape (std : StdSort) {i : Nat} (tracked : engine.Tracked)
    (place : engine.pc = .drain i) : engine.EngineStep std (engine.drainRing i) := by
  obtain ⟨entry, ring, found, valid, passed, limit, stands, lower, upper⟩ :=
    tracked.walking i (by rw [place]; rfl)
  have here : engine.AtRecord i entry ring passed limit := ⟨found, valid, stands, lower, upper⟩
  rw [drainRing, withRing_eq found valid, stands.next_eq (tracked.spanned ring).isMask]
  by_cases past : passed = limit
  · subst past
    simp only [if_true]
    exact .drainCommitted place here
  · simp only [past, if_false]
    exact .drained place here (Nat.lt_of_le_of_ne stands.ordered past)

theorem scan_shape (std : StdSort) {i : Nat} (place : engine.pc = .scan i) :
    engine.EngineStep std (engine.scanRing std i) := by
  cases found : engine.index[i]? with
  | none =>
      cases disabled : engine.tsoDisabled with
      | false =>
          simp only [scanRing, found, disabled]
          exact .flushing place found disabled
      | true =>
          simp only [scanRing, found, disabled, if_true]
          exact .exhausted place found disabled
  | some entry =>
      cases valid : entry.ring with
      | none =>
          simp only [scanRing, found, valid]
          exact .skipped place found valid
      | some ring =>
          rw [scanRing_eq std found valid]
          exact .reset place found valid

theorem commit_shape (std : StdSort) {i : Nat} (tracked : engine.Tracked)
    (place : engine.pc = .commit i) : engine.EngineStep std (engine.commitRing i) := by
  cases found : engine.index[i]? with
  | none =>
      simp only [commitRing, found]
      exact .settled place found
  | some entry =>
      cases last : entry.lastrec with
      | none =>
          simp only [commitRing, found, last]
          exact .untouched place found last
      | some slot =>
          obtain ⟨ring, valid, within⟩ := tracked.lastrec i entry slot found last
          simp only [commitRing, found, last, valid]
          exact .committed place found last valid within

/-- The tests in front of `kill_orphan`. -/
theorem reap_shape (std : StdSort) {i : Nat} (tracked : engine.Tracked)
    (reaping : engine.pc.Reaping i) (trylock : Bool) :
    engine.EngineStep std (engine.step std trylock) := by
  obtain ⟨ring, at'⟩ := tracked.reaping i reaping
  obtain ⟨entry, found, valid⟩ := ringAt_eq_some.mp at'
  cases place : engine.pc with
  | orphan j =>
      obtain rfl : i = j := by rwa [place] at reaping
      simp only [Engine.step, place, testOrphan, withRing_eq found valid]
      split
      · exact .orphaned place at' ‹_›
      · exact .passedOver reaping
  | empty j =>
      obtain rfl : i = j := by rwa [place] at reaping
      simp only [Engine.step, place, testEmpty, withRing_eq found valid]
      split
      · exact .emptied place at' ‹_›
      · exact .passedOver reaping
  | kill j =>
      obtain rfl : i = j := by rwa [place] at reaping
      simp only [Engine.step, place]
      cases trylock with
      | true => exact .reaped place found valid
      | false => exact .passedOver reaping
  | _ =>
      rw [place] at reaping
      exact reaping.elim

theorem shape (std : StdSort) (trylock : Bool) (tracked : engine.Tracked) :
    engine.EngineStep std (engine.step std trylock) := by
  cases place : engine.pc with
  | idle =>
      simp only [Engine.step, place]
      exact .polled place
  | rebuild =>
      simp only [Engine.step, place]
      cases trylock with
      | true => exact .rebuilt place
      | false => exact .unlocked place
  | scan i =>
      simp only [Engine.step, place]
      exact scan_shape std place
  | walk i tsoTs =>
      simp only [Engine.step, place]
      exact tracked.walk_shape std place
  | doFlush left caller =>
      simp only [Engine.step, place]
      exact tracked.doFlush_shape std place
  | drain i =>
      simp only [Engine.step, place]
      exact tracked.drain_shape std place
  | orphan i | empty i | kill i =>
      apply tracked.reap_shape std _ trylock
      · exact i
      · rw [place]
        rfl
  | release i ring =>
      simp only [Engine.step, place]
      exact .released place
  | commit i =>
      simp only [Engine.step, place]
      exact tracked.commit_shape std place
  | finish =>
      simp only [Engine.step, place]
      exact .finished place
  | halted => exact absurd place tracked.running

end Tracked

variable {engine}

theorem Handed.byEngine {after : Engine} {ring : RingId} {slot : UInt32}
    (handed : Handed engine after ring slot) : ∃ events,
      after.shared.trace = engine.shared.trace ++ events ∧
      ∀ event ∈ events, event.byClient = false := by
  obtain ⟨reports, rest, trace, reportsMinor, restMinor⟩ := handed.trace
  refine ⟨_, trace.trans (List.append_assoc _ _ _), ?_⟩
  intro event member
  rcases List.mem_append.mp member with report | later
  · exact Event.byClient_of_minor (reportsMinor event report)
  · rcases List.mem_cons.mp later with rfl | minor
    · rfl
    · exact Event.byClient_of_minor (restMinor event minor)

theorem markTsoFull_aside (engine : Engine) : ∃ events,
    engine.markTsoFull.shared.trace = engine.shared.trace ++ events ∧
    (∀ event ∈ events, event.aside) ∧ .polled ∉ events := by
  rcases engine.markTsoFull_cases with same | ⟨event, injected, same⟩ | same <;> rw [same]
  · exact ⟨[], (List.append_nil _).symm, List.forall_mem_nil _, List.not_mem_nil⟩
  · refine ⟨[event], rfl, List.forall_mem_singleton.mpr (Event.aside_of_injected injected), ?_⟩
    intro member
    rw [← List.mem_singleton.mp member] at injected
    cases injected
  · exact ⟨[.fault], rfl, List.forall_mem_singleton.mpr rfl, by simp⟩

/-- `after` differs from `before` in readable slots of `ring` only, and its head is no further
back. -/
structure RingKept (ring : RingId) (before after : Engine) : Prop where
  slots : ∀ slot, ¬ before.shared.Within ring slot →
    (after.obj ring).ring.slots slot = (before.obj ring).ring.slots slot
  popped : before.shared.popped ring ≤ after.shared.popped ring

namespace RingKept

variable {ring : RingId} {start next : Engine}

theorem steady (same : Shared.Steady engine.shared next.shared)
    (slots : (next.obj ring).ring.slots = (engine.obj ring).ring.slots) :
    RingKept ring engine next :=
  ⟨fun slot _ => congrFun slots slot, (same.popped ring).ge⟩

theorem handed {owner : RingId} {slot : UInt32} (same : start.shared = engine.shared)
    (given : Handed start next owner slot) (within : engine.shared.Within owner slot) :
    RingKept ring engine next := by
  have steady : Shared.Steady engine.shared next.shared := same ▸ given.steady
  have obj : start.obj ring = engine.obj ring := by rw [Engine.obj, same, Engine.obj]
  refine ⟨fun other outside => ?_, (steady.popped ring).ge⟩
  by_cases equal : ring = owner
  · subst equal
    obtain ⟨value, stored, -⟩ := given.stored
    have different : other ≠ slot := by
      rintro rfl
      exact outside within
    rw [stored, obj]
    simp only [Ringbuf.store, different, if_false]
  · rw [given.others ring equal, obj]

theorem committed {i : Nat} {entry : IndexEntry} {owner : RingId} {pit : PopIterator}
    {position : Nat} (tracked : engine.Tracked)
    (place : pit.head = slotOf (engine.obj owner).ring.capacity
      (position + (engine.obj owner).ring.capacity.toNat))
    (lower : engine.shared.popped owner ≤ position)
    (upper : position ≤ (engine.shared.committed owner).length) (pc : Pc) :
    RingKept ring engine ((engine.commitPit i entry owner pit).goto pc) := by
  obtain ⟨popped, -⟩ := @Tracked.commitPit_spanned engine i entry owner pit position tracked place
    lower upper
  by_cases equal : ring = owner
  · subst equal
    refine ⟨fun slot _ => ?_, lower.trans_eq popped.symm⟩
    change (((engine.shared.setRing ring _).rings ring).ring).slots slot = _
    rw [Shared.setRing_rings, if_pos rfl]
    rfl
  · refine ⟨fun slot _ => ?_, Nat.le_of_eq (Shared.popped_elsewhere _ equal).symm⟩
    exact congrArg (·.ring.slots slot) (Shared.setRing_elsewhere _ equal)

end RingKept

namespace EngineStep

variable {std : StdSort} {next : Engine} (step : engine.EngineStep std next)

include step

theorem trace : ∃ events, next.shared.trace = engine.shared.trace ++ events ∧
    ∀ event ∈ events, event.byClient = false := by
  cases step with
  | polled | rebuilt | reset | pushed | orphaned =>
      exact ⟨_, rfl, List.forall_mem_singleton.mpr rfl⟩
  | unlocked | skipped | exhausted | flushing | walked | drainCommitted | passedOver | emptied
  | released | committed | untouched | settled | finished =>
      exact ⟨[], (List.append_nil _).symm, List.forall_mem_nil _⟩
  | @filled i tsoTs entry ring passed limit =>
      obtain ⟨events, trace, aside, -⟩ := markTsoFull_aside
        (engine.pushRecord i entry (engine.beyond entry ring passed)
          (engine.entryFor i tsoTs ring passed))
      refine ⟨.tsoPush engine.tso.tail :: events, trace.trans ?_, ?_⟩
      · change engine.shared.trace ++ [_] ++ events = _
        rw [List.append_assoc, List.singleton_append]
      · exact List.forall_mem_cons.mpr
          ⟨rfl, fun event member => Event.byClient_of_aside (aside event member)⟩
  | @popped left caller te rest _ ring _ _ found valid _ =>
      exact (@flushEntry_handed (engine.popTo left caller rest) te _ ring found valid).byEngine
  | @returned _ caller =>
      cases caller with
      | full => exact ⟨_, rfl, List.forall_mem_singleton.mpr rfl⟩
      | final => exact ⟨[], (List.append_nil _).symm, List.forall_mem_nil _⟩
  | @drained i entry ring passed =>
      exact (flushRecord_handed
        (engine.setEntry i { entry with pit := engine.beyond entry ring passed }) ring _).byEngine
  | reaped _ found valid =>
      rw [killOrphan_eq found valid]
      exact ⟨_, rfl, List.forall_mem_singleton.mpr rfl⟩

theorem committed_eq (ring : RingId) : next.shared.committed ring = engine.shared.committed ring := by
  obtain ⟨events, trace, byEngine⟩ := step.trace
  rw [Shared.committed, trace, committedTo_append, committedTo_byEngine byEngine, List.append_nil,
    Shared.committed]

theorem objs (ring : RingId) : SameObj (engine.obj ring) (next.obj ring) := by
  cases step with
  | polled | rebuilt | reset | pushed | orphaned | unlocked | skipped | exhausted | flushing
  | walked | passedOver | emptied | untouched | settled | finished => exact .refl _
  | @filled i tsoTs entry owner passed limit =>
      exact (Kept.flushFullTso std i (engine.entryFor i tsoTs owner passed).timestamp :
        Kept (engine.pushRecord i entry (engine.beyond entry owner passed)
          (engine.entryFor i tsoTs owner passed)) _).objs ring
  | @popped left caller te rest _ owner _ _ found valid _ =>
      exact (@flushEntry_handed (engine.popTo left caller rest) te _ owner found valid).objs ring
  | @returned _ caller => cases caller <;> exact .refl _
  | @drained i entry owner passed =>
      exact (flushRecord_handed
        (engine.setEntry i { entry with pit := engine.beyond entry owner passed }) owner _).objs ring
  | @drainCommitted i entry owner _ _ here => exact (Kept.commitPit here.found owner entry.pit).objs ring
  | @committed i entry owner slot _ found _ _ _ => exact (Kept.commitPit found owner _).objs ring
  | reaped _ found valid =>
      rw [killOrphan_eq found valid]
      exact .refl _
  | @released i owner =>
      change SameObj (engine.obj ring) ((engine.setRing owner _).obj ring)
      rw [obj_setRing]
      split
      · rename_i same
        subst same
        exact ⟨rfl, rfl, rfl, rfl, rfl, rfl, rfl, rfl, rfl, rfl⟩
      · exact .refl _

theorem mode : next.tsoDisabled = engine.tsoDisabled := by
  cases step with
  | polled | rebuilt | reset | pushed | orphaned | unlocked | skipped | exhausted | flushing
  | walked | passedOver | emptied | untouched | settled | finished | drainCommitted | committed
  | released => rfl
  | @filled i tsoTs entry owner passed limit =>
      change (Engine.markTsoFull _).tsoDisabled = _
      rw [markTsoFull_tsoDisabled]
      rfl
  | @popped left caller te rest _ owner _ _ found valid _ =>
      exact (@flushEntry_handed (engine.popTo left caller rest) te _ owner found valid).tsoDisabled
  | @returned _ caller => cases caller <;> rfl
  | @drained i entry owner passed =>
      exact (flushRecord_handed
        (engine.setEntry i { entry with pit := engine.beyond entry owner passed }) owner _).tsoDisabled
  | reaped _ found valid =>
      rw [killOrphan_eq found valid]
      rfl

/-- The engine stores into readable slots only, and its heads never go back. -/
theorem ring_kept (tracked : engine.Tracked) (ring : RingId) : RingKept ring engine next := by
  cases step with
  | polled | reset | pushed | orphaned => exact .steady (.log rfl) rfl
  | rebuilt =>
      exact .steady ((Shared.Steady.log (show Event.indexed.byClient = false from rfl)).trans
        ⟨fun _ => rfl, fun _ => rfl, fun _ => rfl, fun _ => rfl⟩) rfl
  | unlocked | skipped | exhausted | flushing | walked | passedOver | emptied | untouched | settled
  | finished => exact .steady (.refl _) rfl
  | @filled i tsoTs entry owner passed limit =>
      have pushed : Shared.Steady engine.shared (engine.pushRecord i entry
        (engine.beyond entry owner passed) (engine.entryFor i tsoTs owner passed)).shared := .log rfl
      refine .steady (pushed.trans (markTsoFull_steady _)) ?_
      change ((Engine.markTsoFull _).shared.rings ring).ring.slots = _
      rw [markTsoFull_rings]
      rfl
  | @popped left caller te rest entry owner _ _ found valid within =>
      exact @RingKept.handed _ ring (engine.popTo left caller rest) _ owner te.slot rfl
        (flushEntry_handed found valid) within
  | @returned _ caller =>
      cases caller with
      | full => exact .steady (.log rfl) rfl
      | final => exact .steady (.refl _) rfl
  | @drained i entry owner passed limit _ here more =>
      have upper := here.upper
      exact @RingKept.handed _ ring
        (engine.setEntry i { entry with pit := engine.beyond entry owner passed }) _ owner _
        rfl (flushRecord_handed _ owner _) ⟨passed, here.lower, by omega, rfl⟩
  | drainCommitted _ here => exact .committed tracked here.stands.head here.lower here.upper _
  | @committed i entry owner slot _ _ _ _ within =>
      obtain ⟨position, lower, upper, slotEq⟩ := within
      refine .committed tracked ?_ (Nat.le_succ_of_le lower) upper _
      exact slotEq.trans (slotOf_last (tracked.spanned owner).isMask position).symm
  | reaped _ found valid =>
      rw [killOrphan_eq found valid] at *
      exact .steady ((Shared.Steady.log (show Event.byClient (.reaped _) = false from rfl)).trans
        ⟨fun _ => rfl, fun _ => rfl, fun _ => rfl, fun _ => rfl⟩) rfl
  | @released i owner =>
      have ringEq (other : RingId) : ((engine.releaseOrphan i owner).obj other).ring =
          (engine.obj other).ring := Shared.setRing_ring (by rfl) other
      refine .steady ⟨fun _ => rfl, fun other => ?_, fun other => ?_, fun other => ?_⟩ ?_
      · exact congrArg (·.capacity) (ringEq other)
      · exact congrArg (·.head) (ringEq other)
      · exact congrArg (·.tail) (ringEq other)
      · exact congrArg (·.slots) (ringEq ring)

/-- No engine step writes the slot the writer of a ring fills next. -/
theorem tail_kept (tracked : engine.Tracked) (ring : RingId) :
    (next.obj ring).ring.slots (next.obj ring).ring.tail =
      (engine.obj ring).ring.slots (engine.obj ring).ring.tail := by
  rw [(step.objs ring).tail]
  apply (step.ring_kept tracked ring).slots
  intro ⟨position, lower, upper, slotEq⟩
  exact (tracked.spanned ring).slot_ne_tail lower upper slotEq.symm

end EngineStep

/-- What every reachable state keeps. -/
structure Sound (engine : Engine) : Prop where
  registered : engine.Registered
  tracked : engine.Tracked

theorem create_sound (capacity : UInt32) (tsoDisabled : Bool) (timesource : UInt64)
    {rings : RingId → RingObj} (fresh : ∀ ring, (rings ring).Fresh) :
    (create capacity tsoDisabled timesource rings).Sound :=
  ⟨create_registered capacity tsoDisabled timesource fresh,
    create_tracked capacity tsoDisabled timesource fresh⟩

theorem Sound.act (std : StdSort) (sound : engine.Sound) (action : Action) :
    (engine.act std action).Sound :=
  ⟨sound.registered.act std action, sound.tracked.act std sound.registered action⟩

theorem Sound.after (std : StdSort) (sound : engine.Sound) (actions : List Action) :
    (engine.after std actions).Sound :=
  runs_invariant sound (fun _ action holds => holds.act std action) actions

/-- An invariant of every run that meets an assumption, from what a client
operation and what an engine step of each shape preserve. -/
theorem after_induction {std : StdSort} {Good Inv : Engine → Prop} {start : Engine}
    (sound : start.Sound)
    (clientEarlier : ∀ (engine : Engine) (op : Op), engine.Sound →
      Good { engine with shared := engine.shared.apply op } → Good engine)
    (stepEarlier : ∀ engine next : Engine, engine.Sound → engine.EngineStep std next →
      Good next → Good engine)
    (initial : Good start → Inv start)
    (client : ∀ (engine : Engine) (op : Op), engine.Sound →
      Good { engine with shared := engine.shared.apply op } → Inv engine →
      Inv { engine with shared := engine.shared.apply op })
    (step : ∀ engine next : Engine, engine.Sound → next.Sound → engine.EngineStep std next →
      Good next → Inv engine → Inv next)
    (actions : List Action) (good : Good (start.after std actions)) :
    Inv (start.after std actions) := by
  refine runs_invariant_of (sound.after std) ?_ initial ?_ actions good
  · intro state action kept good
    cases action with
    | engine trylock => exact stepEarlier state _ kept (kept.tracked.shape std trylock) good
    | client op => exact clientEarlier state op kept good
  · intro state action kept good holds
    cases action with
    | engine trylock =>
        exact step state _ kept (kept.act std (.engine trylock)) (kept.tracked.shape std trylock)
          good holds
    | client op => exact client state op kept good holds

theorem Sound.act_trace (sound : engine.Sound) (std : StdSort) (action : Action) :
    ∃ events, (engine.act std action).shared.trace = engine.shared.trace ++ events := by
  cases action with
  | engine trylock =>
      obtain ⟨events, trace, -⟩ := (sound.tracked.shape std trylock).trace
      exact ⟨events, trace⟩
  | client op =>
      obtain ⟨events, trace, -⟩ := (engine.shared.apply_step op).trace
      exact ⟨events, trace⟩

theorem Sound.after_trace (sound : engine.Sound) (std : StdSort) (actions : List Action) :
    engine.shared.trace <+: (engine.after std actions).shared.trace := by
  induction actions using List.reverseRecOn with
  | nil => exact List.prefix_rfl
  | append_singleton earlier last ih =>
      obtain ⟨events, trace⟩ := (sound.after std earlier).act_trace std last
      rw [Engine.after, runs_concat]
      exact ih.trans (trace ▸ List.prefix_append _ _)

theorem Sound.after_mode {std : StdSort} (sound : engine.Sound) (actions : List Action) :
    (engine.after std actions).tsoDisabled = engine.tsoDisabled :=
  @after_induction std (fun _ => True) (fun state => state.tsoDisabled = engine.tsoDisabled) engine
    sound (fun _ _ _ _ => trivial) (fun _ _ _ _ _ => trivial) (fun _ => rfl)
    (fun _ _ _ _ same => same) (fun _ _ _ _ shape _ same => shape.mode.trans same) actions trivial

end Engine

end Hogl.Polling
