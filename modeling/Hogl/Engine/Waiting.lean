import Hogl.Engine.Numbering

namespace Hogl.Polling

open Hogl.Data Hogl.Ring

/-! # Waiting for room

`do_flush` of `src/flush.cc` and `do_change_timesource` of
`src/timesource.cc`, with the engine at work while they wait.  Both take their
sequence number before they look for room.
-/

/-! ## What the engine cannot see

The engine reads neither the counter of a ring nor where its writer stands. -/

/-- The ring with another counter and another place of its writer. -/
def RingObj.cloak (obj : RingObj) (seqnum : UInt64) (writer : Writer) : RingObj :=
  { obj with ring := { obj.ring with seqnum }, writer }

namespace Engine

variable (engine : Engine) (seqnums : RingId → UInt64) (writers : RingId → Writer)

def cloak (trace : List Event) : Engine :=
  { engine with shared := { engine.shared with
      rings := fun ring => (engine.obj ring).cloak (seqnums ring) (writers ring)
      trace } }

/-- `after` is `before` but for the counters, the writers and the history. -/
def Cloaks (before after : Engine) : Prop := ∃ trace, after = before.cloak seqnums writers trace

variable {seqnums writers} {before after : Engine}

namespace Cloaks

variable (cloaks : Cloaks seqnums writers before after)

include cloaks

theorem log (event : Event) : Cloaks seqnums writers (before.log event) (after.log event) := by
  obtain ⟨trace, rfl⟩ := cloaks
  exact ⟨trace ++ [event], rfl⟩

theorem goto (pc : Pc) : Cloaks seqnums writers (before.goto pc) (after.goto pc) := by
  obtain ⟨trace, rfl⟩ := cloaks
  exact ⟨trace, rfl⟩

theorem setEntry (i : Nat) (entry : IndexEntry) :
    Cloaks seqnums writers (before.setEntry i entry) (after.setEntry i entry) := by
  obtain ⟨trace, rfl⟩ := cloaks
  exact ⟨trace, rfl⟩

theorem obj (ring : RingId) :
    after.obj ring = (before.obj ring).cloak (seqnums ring) (writers ring) := by
  obtain ⟨trace, rfl⟩ := cloaks
  rfl

theorem index : after.index = before.index := by
  obtain ⟨trace, rfl⟩ := cloaks
  rfl

theorem tso : after.tso = before.tso := by
  obtain ⟨trace, rfl⟩ := cloaks
  rfl

theorem tsoDisabled : after.tsoDisabled = before.tsoDisabled := by
  obtain ⟨trace, rfl⟩ := cloaks
  rfl

theorem capacity (ring : RingId) :
    (after.obj ring).ring.capacity = (before.obj ring).ring.capacity := by
  obtain ⟨trace, rfl⟩ := cloaks
  rfl

theorem slots (ring : RingId) : (after.obj ring).ring.slots = (before.obj ring).ring.slots := by
  obtain ⟨trace, rfl⟩ := cloaks
  rfl

theorem setRing (ring : RingId) (updated : RingObj) :
    Cloaks seqnums writers (before.setRing ring updated)
      (after.setRing ring (updated.cloak (seqnums ring) (writers ring))) := by
  obtain ⟨trace, rfl⟩ := cloaks
  refine ⟨trace, ?_⟩
  have rings : Function.update (fun other => (before.obj other).cloak (seqnums other)
      (writers other)) ring (updated.cloak (seqnums ring) (writers ring)) =
      fun other => (Function.update before.shared.rings ring updated other).cloak (seqnums other)
        (writers other) := by
    funext other
    exact (Function.apply_update (fun other obj => RingObj.cloak obj (seqnums other) (writers other))
      before.shared.rings ring updated other).symm
  simp only [Engine.setRing, Shared.setRing, cloak, rings]
  rfl

theorem fault : Cloaks seqnums writers before.fault after.fault := (cloaks.log .fault).goto .halted

theorem withRing (i : Nat) {body body' : IndexEntry → RingId → Engine}
    (each : ∀ entry ring, Cloaks seqnums writers (body entry ring) (body' entry ring)) :
    Cloaks seqnums writers (before.withRing i body) (after.withRing i body') := by
  simp only [Engine.withRing, cloaks.index]
  split
  · split
    · exact each _ _
    · exact cloaks.fault
  · exact cloaks.fault

theorem rebuildRingIndex (std : StdSort) :
    Cloaks seqnums writers (before.rebuildRingIndex std) (after.rebuildRingIndex std) := by
  obtain ⟨trace, rfl⟩ := cloaks
  exact ⟨trace ++ [.indexed], rfl⟩

theorem switchTimesource (ring : RingId) (record : Record) :
    Cloaks seqnums writers (before.switchTimesource ring record)
      (after.switchTimesource ring record) := by
  obtain ⟨trace, rfl⟩ := cloaks
  have rings : (fun other => if other ∈ before.shared.ringMap
      then { (before.cloak seqnums writers trace).obj other with
        timesource := record.getArgVal64 1 }
      else (before.cloak seqnums writers trace).obj other) =
      fun other => (if other ∈ before.shared.ringMap
        then { before.obj other with timesource := record.getArgVal64 1 }
        else before.obj other).cloak (seqnums other) (writers other) := by
    funext other
    split <;> rfl
  exact ⟨_, congrArg (fun rings =>
    { Engine.switchTimesource (before.cloak seqnums writers trace) ring record with
      shared.rings := rings }) rings⟩

theorem ackSlot (ring : RingId) (slot : UInt32) :
    Cloaks seqnums writers (before.ackSlot ring slot) (after.ackSlot ring slot) := by
  have stored := cloaks.setRing ring { before.obj ring with
    ring := (before.obj ring).ring.store slot ((before.obj ring).ring.slots slot).ack }
  rw [Engine.ackSlot, Engine.ackSlot, cloaks.obj]
  exact stored.log (.acked ring slot)

theorem flushRecord (ring : RingId) (slot : UInt32) :
    Cloaks seqnums writers (before.flushRecord ring slot) (after.flushRecord ring slot) := by
  have entered := cloaks.log (.flushed ring ((before.obj ring).ring.slots slot))
  simp only [Engine.flushRecord, cloaks.slots]
  have processed {first second : Engine} (same : Cloaks seqnums writers first second) :
      Cloaks seqnums writers
        { first with stats.recsOut := first.stats.recsOut + 1 }
        { second with stats.recsOut := second.stats.recsOut + 1 } := by
    obtain ⟨trace, rfl⟩ := same
    exact ⟨trace, rfl⟩
  apply processed
  split
  · split
    · exact (entered.switchTimesource ring _).ackSlot ring slot
    · exact entered.ackSlot ring slot
  · exact entered.log _

theorem reportDrops (ring : RingId) (record : Record) (expected : UInt64) :
    Cloaks seqnums writers (before.reportDrops ring record expected)
      (after.reportDrops ring record expected) := by
  have dropmark : after.shared.dropmark = before.shared.dropmark := by
    obtain ⟨trace, rfl⟩ := cloaks
    rfl
  simp only [Engine.reportDrops, dropmark]
  split
  · exact cloaks
  · obtain ⟨trace, rfl⟩ := cloaks
    split
    · exact ⟨_, rfl⟩
    · exact ⟨_, rfl⟩

theorem flushEntry (te : TsoEntry) :
    Cloaks seqnums writers (before.flushEntry te) (after.flushEntry te) := by
  refine cloaks.withRing te.tag fun entry ring => ?_
  simp only [cloaks.slots]
  exact ((cloaks.reportDrops ring _ _).setEntry _ _).flushRecord ring te.slot

theorem flushReturn (caller : Caller) :
    Cloaks seqnums writers (before.flushReturn caller) (after.flushReturn caller) := by
  obtain ⟨trace, rfl⟩ := cloaks
  cases caller with
  | full => exact ⟨_, rfl⟩
  | final => exact ⟨_, rfl⟩

theorem doFlushTso (left : Nat) (caller : Caller) :
    Cloaks seqnums writers (before.doFlushTso left caller) (after.doFlushTso left caller) := by
  simp only [Engine.doFlushTso, cloaks.tso]
  split
  · rename_i left te tso popped
    have start : Cloaks seqnums writers { before with tso, pc := .doFlush left caller }
        { after with tso, pc := .doFlush left caller } := by
      obtain ⟨trace, rfl⟩ := cloaks
      exact ⟨trace, rfl⟩
    exact start.flushEntry te
  · exact cloaks.flushReturn caller

theorem markTsoFull : Cloaks seqnums writers before.markTsoFull after.markTsoFull := by
  have tsofullmark : after.shared.tsofullmark = before.shared.tsofullmark := by
    obtain ⟨trace, rfl⟩ := cloaks
    rfl
  simp only [Engine.markTsoFull, tsofullmark, cloaks.tso, cloaks.slots]
  split
  · split
    · exact cloaks.withRing _ fun _ _ => cloaks.log _
    · exact cloaks.fault
  · exact cloaks

theorem flushFullTso (std : StdSort) (i : Nat) (tsoTs : UInt64) :
    Cloaks seqnums writers (before.flushFullTso std i tsoTs) (after.flushFullTso std i tsoTs) := by
  obtain ⟨trace, marked⟩ := cloaks.markTsoFull
  obtain ⟨_, rfl⟩ := cloaks
  simp only [Engine.flushFullTso]
  rw [marked]
  exact ⟨trace, rfl⟩

theorem scanRing (std : StdSort) (i : Nat) :
    Cloaks seqnums writers (before.scanRing std i) (after.scanRing std i) := by
  have reset (ring : RingId) : PopIterator.reset (after.obj ring).ring =
      PopIterator.reset (before.obj ring).ring := by
    obtain ⟨trace, rfl⟩ := cloaks
    rfl
  simp only [Engine.scanRing, cloaks.index, cloaks.tsoDisabled, reset]
  split
  · split
    · exact cloaks.goto _
    · obtain ⟨trace, rfl⟩ := cloaks
      exact ⟨trace, rfl⟩
  · split
    · exact cloaks.goto _
    · exact ((cloaks.setEntry i _).log _).goto _

theorem walkRing (std : StdSort) (i : Nat) (tsoTs : UInt64) :
    Cloaks seqnums writers (before.walkRing std i tsoTs) (after.walkRing std i tsoTs) := by
  refine cloaks.withRing i fun entry ring => ?_
  simp only [cloaks.capacity, cloaks.slots]
  split
  · exact cloaks.goto _
  · rename_i slot pit _
    have pushed (te : TsoEntry) : Cloaks seqnums writers (before.pushRecord i entry pit te)
        (after.pushRecord i entry pit te) := by
      obtain ⟨trace, rfl⟩ := cloaks
      exact ⟨_, rfl⟩
    simp only [(pushed _).tso]
    split
    · exact (pushed _).flushFullTso std i _
    · exact pushed _

theorem commitPit (i : Nat) (entry : IndexEntry) (ring : RingId) (pit : PopIterator) :
    Cloaks seqnums writers (before.commitPit i entry ring pit)
      (after.commitPit i entry ring pit) := by
  have stored := cloaks.setRing ring { before.obj ring with
    ring := pit.commit (before.obj ring).ring }
  rw [Engine.commitPit, Engine.commitPit, cloaks.obj]
  exact stored.setEntry i _

theorem drainRing (i : Nat) :
    Cloaks seqnums writers (before.drainRing i) (after.drainRing i) := by
  refine cloaks.withRing i fun entry ring => ?_
  simp only [cloaks.capacity]
  split
  · exact (cloaks.commitPit i entry ring entry.pit).goto _
  · exact (cloaks.setEntry i _).flushRecord ring _

theorem commitRing (i : Nat) :
    Cloaks seqnums writers (before.commitRing i) (after.commitRing i) := by
  simp only [Engine.commitRing, cloaks.index]
  split
  · exact cloaks.goto _
  · split
    · exact (cloaks.commitPit i _ _ _).goto _
    · exact cloaks.goto _

theorem testOrphan (i : Nat) :
    Cloaks seqnums writers (before.testOrphan i) (after.testOrphan i) := by
  refine cloaks.withRing i fun _ ring => ?_
  have refcnt : (after.obj ring).refcnt = (before.obj ring).refcnt := by
    rw [cloaks.obj]
    rfl
  simp only [refcnt]
  split
  · exact (cloaks.log _).goto _
  · exact cloaks.goto _

theorem testEmpty (i : Nat) :
    Cloaks seqnums writers (before.testEmpty i) (after.testEmpty i) := by
  refine cloaks.withRing i fun _ ring => ?_
  have empty : (after.obj ring).ring.empty = (before.obj ring).ring.empty := by
    rw [cloaks.obj]
    rfl
  simp only [empty]
  exact cloaks.goto _

theorem killOrphan (i : Nat) (trylock : Bool) :
    Cloaks seqnums writers (before.killOrphan i trylock) (after.killOrphan i trylock) := by
  simp only [Engine.killOrphan]
  split
  · refine cloaks.withRing i fun _ ring => ?_
    obtain ⟨trace, rfl⟩ := cloaks
    exact ⟨_, rfl⟩
  · exact cloaks.goto _

theorem releaseOrphan (i : Nat) (ring : RingId) :
    Cloaks seqnums writers (before.releaseOrphan i ring) (after.releaseOrphan i ring) := by
  have stored := cloaks.setRing ring { before.obj ring with
    refcnt := (before.obj ring).refcnt - 1 }
  rw [Engine.releaseOrphan, Engine.releaseOrphan, cloaks.obj]
  exact stored.goto _

theorem step (std : StdSort) (trylock : Bool) :
    Cloaks seqnums writers (before.step std trylock) (after.step std trylock) := by
  have place : after.pc = before.pc := by
    obtain ⟨trace, rfl⟩ := cloaks
    rfl
  simp only [Engine.step, place]
  split
  · obtain ⟨trace, rfl⟩ := cloaks
    exact ⟨_, rfl⟩
  · split
    · exact (cloaks.rebuildRingIndex std).goto _
    · exact cloaks.goto _
  · exact cloaks.scanRing std _
  · exact cloaks.walkRing std _ _
  · exact cloaks.doFlushTso _ _
  · exact cloaks.drainRing _
  · exact cloaks.testOrphan _
  · exact cloaks.testEmpty _
  · exact cloaks.killOrphan _ trylock
  · exact cloaks.releaseOrphan _ _
  · exact cloaks.commitRing _
  · exact cloaks.goto _
  · exact cloaks

end Cloaks

end Engine

/-! ## The calls -/

/-- The engine steps that fall before each look for room, before the filling
and before the push of the record, and before each look for the
acknowledgement.  They are given by what `pthread_mutex_trylock` answers. -/
structure Interleaving where
  room : Nat → List Bool
  fill : List Bool
  push : List Bool
  ack : Nat → List Bool

/-- What a call returned, and whether it came to its push. -/
structure Returned where
  result : Bool
  pushed : Bool
  engine : Engine

/-- `internal::SPR_FLUSH`. -/
def sprFlush : UInt32 := 0

namespace Engine

variable (std : StdSort)

def polls (engine : Engine) (answers : List Bool) : Engine :=
  engine.after std (answers.map .engine)

/-- The engine behind the first `gaps` of the lists of steps. -/
def polled (between : Nat → List Bool) (engine : Engine) : Nat → Engine
  | 0 => engine
  | gaps + 1 => (polled between engine gaps).polls std (between gaps)

/-- A loop that looks and, by `timeout`, sleeps for a millisecond as long as
the time asked for is not over.  `turn` counts the sleeps. -/
def wait (usec : UInt32) (done : Engine → Bool) (between : Nat → List Bool) (turn : Nat)
    (engine : Engine) : Bool × Nat × Engine :=
  let seen := engine.polls std (between turn)
  if done seen then (true, turn, seen)
  else if usec.toNat ≤ 1000 * turn then (false, turn, seen)
  else wait usec done between (turn + 1) seen
termination_by usec.toNat - 1000 * turn

/-- The common body: with `unwaited` the acknowledgement is not waited for. -/
def doSpecial (polls : Interleaving) (ring : RingId) (timestamp : UInt64) (type : UInt32)
    (arg : UInt64) (unwaited : Bool) (usec : UInt32) (engine : Engine) : Returned :=
  let taken := engine.act std (.client (.reserve ring))
  match taken.wait std usec (fun seen => (seen.obj ring).ring.room != 0) polls.room 0 with
  | (false, _, seen) =>
      { result := false, pushed := false, engine := seen.act std (.client (.giveUp ring)) }
  | (true, turn, seen) =>
      let filled := ((seen.polls std polls.fill).act std
        (.client (.arm ring timestamp type arg 0))).polls std polls.push
      let slot := (filled.obj ring).ring.tail
      let sent := filled.act std (.client (.publish ring))
      if unwaited then
        { result := true, pushed := true, engine := sent.act std (.client (.skipWait ring)) }
      else match sent.wait std usec (fun seen => ((seen.obj ring).ring.slots slot).acked)
          polls.ack turn with
        | (true, _, seen) =>
            { result := true, pushed := true, engine := seen.act std (.client (.observe ring)) }
        | (false, _, seen) =>
            { result := false, pushed := true, engine := seen.act std (.client (.abandon ring)) }

def doFlush (polls : Interleaving) (ring : RingId) (timestamp : UInt64) (usec : UInt32)
    (engine : Engine) : Returned :=
  engine.doSpecial std polls ring timestamp sprFlush 0 false usec

def doChangeTimesource (polls : Interleaving) (ring : RingId) (timesource timestamp : UInt64)
    (usec : UInt32) (engine : Engine) : Returned :=
  engine.doSpecial std polls ring timestamp 1 timesource (usec == 0) usec

/-- The number of sleeps after which the time is over. -/
def sleeps (usec : UInt32) : Nat := (usec.toNat + 999) / 1000

/-- Some look finds room in the ring as the polls alone leave it. -/
def FindsRoom (polls : Interleaving) (ring : RingId) (usec : UInt32) (engine : Engine) : Prop :=
  ∃ look ≤ sleeps usec, ((engine.polled std polls.room (look + 1)).obj ring).ring.room ≠ 0

/-- A call that came back without its push leaves the counter and the contents
of the ring as the polls alone would have left them. -/
def Unharmed (polls : Interleaving) (ring : RingId) (usec : UInt32) (engine : Engine)
    (returned : Returned) : Prop :=
  returned.result = false → returned.pushed = false →
    (returned.engine.obj ring).ring.seqnum =
      ((engine.polled std polls.room (sleeps usec + 1)).obj ring).ring.seqnum ∧
    (returned.engine.obj ring).ring.queue =
      ((engine.polled std polls.room (sleeps usec + 1)).obj ring).ring.queue

variable {engine : Engine} {ring : RingId}

theorem Cloaks.polls {seqnums : RingId → UInt64} {writers : RingId → Writer}
    {before after : Engine} (cloaks : Cloaks seqnums writers before after) (answers : List Bool) :
    Cloaks seqnums writers (before.polls std answers) (after.polls std answers) := by
  induction answers generalizing before after with
  | nil => exact cloaks
  | cons first rest ih => exact ih (cloaks.step std first)

theorem Cloaks.polled {seqnums : RingId → UInt64} {writers : RingId → Writer}
    {before after : Engine} (cloaks : Cloaks seqnums writers before after)
    (between : Nat → List Bool) (gaps : Nat) :
    Cloaks seqnums writers (before.polled std between gaps) (after.polled std between gaps) := by
  induction gaps with
  | zero => exact cloaks
  | succ gaps ih => exact ih.polls std (between gaps)

theorem polled_seqnum (between : Nat → List Bool) (gaps : Nat) :
    ((engine.polled std between gaps).obj ring).ring.seqnum = (engine.obj ring).ring.seqnum := by
  have own : Cloaks (fun ring => (engine.obj ring).ring.seqnum) (fun ring => (engine.obj ring).writer)
      engine engine := ⟨engine.shared.trace, rfl⟩
  rw [(own.polled std between gaps).obj ring]
  rfl

/-- The wait ends at the first look that succeeds, or with its time over. -/
theorem wait_cases (engine : Engine) (usec : UInt32) (done : Engine → Bool) (between : Nat → List Bool)
    {turn : Nat} (early : turn ≤ sleeps usec) :
    (∃ look, turn ≤ look ∧ look ≤ sleeps usec ∧
      done (engine.polled std between (look + 1)) = true ∧
      (engine.polled std between turn).wait std usec done between turn =
        (true, look, engine.polled std between (look + 1))) ∨
    (∀ look, turn ≤ look → look ≤ sleeps usec →
      done (engine.polled std between (look + 1)) = false) ∧
      (engine.polled std between turn).wait std usec done between turn =
        (false, sleeps usec, engine.polled std between (sleeps usec + 1)) := by
  have spent : usec.toNat ≤ 1000 * turn ↔ sleeps usec ≤ turn := by
    rw [sleeps]
    omega
  rw [wait]
  change (∃ look, _ ∧ _ ∧ _ ∧ (if done (engine.polled std between (turn + 1)) = true
    then (true, turn, engine.polled std between (turn + 1))
    else if usec.toNat ≤ 1000 * turn then (false, turn, engine.polled std between (turn + 1))
    else (engine.polled std between (turn + 1)).wait std usec done between (turn + 1)) = _) ∨ _ ∧
    (if done (engine.polled std between (turn + 1)) = true
    then (true, turn, engine.polled std between (turn + 1))
    else if usec.toNat ≤ 1000 * turn then (false, turn, engine.polled std between (turn + 1))
    else (engine.polled std between (turn + 1)).wait std usec done between (turn + 1)) = _
  by_cases found : done (engine.polled std between (turn + 1)) = true
  · exact .inl ⟨turn, Nat.le_refl turn, early, found, by rw [if_pos found]⟩
  · have here : done (engine.polled std between (turn + 1)) = false := by simpa using found
    by_cases last : sleeps usec ≤ turn
    · have equal : turn = sleeps usec := Nat.le_antisymm early last
      refine .inr ⟨fun look lower upper => ?_, ?_⟩
      · rw [show look = turn by omega]
        exact here
      · rw [if_neg found, if_pos (spent.mpr last), equal]
    · rw [if_neg found, if_neg (mt spent.mp last)]
      have next : turn + 1 ≤ sleeps usec := by omega
      rcases wait_cases engine usec done between next with
        ⟨look, lower, upper, succeeds, result⟩ | ⟨never, result⟩
      · exact .inl ⟨look, by omega, upper, succeeds, result⟩
      · refine .inr ⟨fun look lower upper => ?_, result⟩
        by_cases first : look = turn
        · rw [first]
          exact here
        · exact never look (by omega) upper
termination_by sleeps usec - turn

/-- Taking a number changes what the engine cannot see. -/
theorem reserve_cloaks (held : (engine.obj ring).clients ≠ 0)
    (idle : (engine.obj ring).writer = .idle) :
    Cloaks (Function.update (fun other => (engine.obj other).ring.seqnum) ring
        ((engine.obj ring).ring.seqnum + 1))
      (Function.update (fun other => (engine.obj other).writer) ring
        (.reserved (engine.obj ring).ring.seqnum))
      engine (engine.act std (.client (.reserve ring))) := by
  have enabled : ¬ ((engine.shared.rings ring).clients = 0 ∨ (engine.shared.rings ring).writer ≠ .idle) :=
    fun either => either.elim held fun busy => busy idle
  have applied : engine.act std (.client (.reserve ring)) = (engine.setRing ring
      ((engine.obj ring).cloak ((engine.obj ring).ring.seqnum + 1)
        (.reserved (engine.obj ring).ring.seqnum))).log (.reserved ring) := by
    simp only [act, Shared.apply, if_neg enabled]
    rfl
  refine ⟨engine.shared.trace ++ [.reserved ring], applied.trans ?_⟩
  have rings : Function.update engine.shared.rings ring ((engine.obj ring).cloak
      ((engine.obj ring).ring.seqnum + 1) (.reserved (engine.obj ring).ring.seqnum)) =
      fun other => (engine.obj other).cloak
        (Function.update (fun other => (engine.obj other).ring.seqnum) ring
          ((engine.obj ring).ring.seqnum + 1) other)
        (Function.update (fun other => (engine.obj other).writer) ring
          (.reserved (engine.obj ring).ring.seqnum) other) := by
    funext other
    by_cases same : other = ring
    · subst same
      simp only [Function.update_self]
    · simp only [Function.update_of_ne same]
      rfl
  exact congrArg (fun rings => ({ engine with shared := { engine.shared with
    rings, trace := engine.shared.trace ++ [.reserved ring] } } : Engine)) rings

theorem giveUp_ring (engine : Engine) (ring : RingId) :
    ((engine.act std (.client (.giveUp ring))).obj ring).ring = (engine.obj ring).ring := by
  change ((engine.shared.apply (.giveUp ring)).rings ring).ring = _
  simp only [Shared.apply]
  split
  · split
    · rfl
    · rw [Shared.own_rings]
      rfl
  · rfl

/-- With no room at any look the call gives up, with the contents as they
should be and the counter one ahead. -/
theorem doSpecial_gives_up (polls : Interleaving) (timestamp : UInt64) (type : UInt32)
    (arg : UInt64) (unwaited : Bool) (usec : UInt32) (held : (engine.obj ring).clients ≠ 0)
    (idle : (engine.obj ring).writer = .idle) (none : ¬ FindsRoom std polls ring usec engine) :
    (engine.doSpecial std polls ring timestamp type arg unwaited usec).result = false ∧
    (engine.doSpecial std polls ring timestamp type arg unwaited usec).pushed = false ∧
    ((engine.doSpecial std polls ring timestamp type arg unwaited usec).engine.obj ring).ring =
      { ((engine.polled std polls.room (sleeps usec + 1)).obj ring).ring with
        seqnum := (engine.obj ring).ring.seqnum + 1 } := by
  have cloaks := reserve_cloaks std held idle
  have full (look : Nat) (inTime : look ≤ sleeps usec) :
      (((engine.act std (.client (.reserve ring))).polled std polls.room (look + 1)).obj
        ring).ring.room = 0 := by
    have same := (cloaks.polled std polls.room (look + 1)).obj ring
    rw [same]
    by_contra room
    exact none ⟨look, inTime, room⟩
  rcases wait_cases std (engine.act std (.client (.reserve ring))) usec
    (fun seen => (seen.obj ring).ring.room != 0) polls.room (Nat.zero_le _) with
    ⟨look, -, inTime, found, -⟩ | ⟨-, result⟩
  · rw [full look inTime] at found
    cases found
  · have returned : engine.doSpecial std polls ring timestamp type arg unwaited usec =
        { result := false, pushed := false,
          engine := ((engine.act std (.client (.reserve ring))).polled std polls.room
            (sleeps usec + 1)).act std (.client (.giveUp ring)) } := by
      have result : (engine.act std (.client (.reserve ring))).wait std usec
        (fun seen => (seen.obj ring).ring.room != 0) polls.room 0 = _ := result
      simp only [doSpecial, result]
    rw [returned]
    refine ⟨rfl, rfl, (giveUp_ring std _ ring).trans ?_⟩
    rw [(cloaks.polled std polls.room (sleeps usec + 1)).obj ring, Function.update_self]
    rfl

/-- With room at some look the call comes to its push. -/
theorem doSpecial_pushes (polls : Interleaving) (timestamp : UInt64) (type : UInt32)
    (arg : UInt64) (unwaited : Bool) (usec : UInt32) (held : (engine.obj ring).clients ≠ 0)
    (idle : (engine.obj ring).writer = .idle) (room : FindsRoom std polls ring usec engine) :
    (engine.doSpecial std polls ring timestamp type arg unwaited usec).pushed = true := by
  have cloaks := reserve_cloaks std held idle
  obtain ⟨look, inTime, room⟩ := room
  rcases wait_cases std (engine.act std (.client (.reserve ring))) usec
    (fun seen => (seen.obj ring).ring.room != 0) polls.room (Nat.zero_le _) with
    ⟨first, -, -, -, result⟩ | ⟨never, -⟩
  · have result : (engine.act std (.client (.reserve ring))).wait std usec
      (fun seen => (seen.obj ring).ring.room != 0) polls.room 0 = _ := result
    simp only [doSpecial, result]
    split
    · rfl
    · split <;> rfl
  · have full := never look (Nat.zero_le look) inTime
    rw [(cloaks.polled std polls.room (look + 1)).obj ring, bne_eq_false_iff_eq] at full
    exact absurd full room

theorem doSpecial_unharmed_iff (polls : Interleaving) (timestamp : UInt64) (type : UInt32)
    (arg : UInt64) (unwaited : Bool) (usec : UInt32) (held : (engine.obj ring).clients ≠ 0)
    (idle : (engine.obj ring).writer = .idle) :
    Unharmed std polls ring usec engine
      (engine.doSpecial std polls ring timestamp type arg unwaited usec) ↔
    FindsRoom std polls ring usec engine := by
  constructor
  · intro unharmed
    by_contra none
    obtain ⟨failed, unpushed, same⟩ := doSpecial_gives_up std polls timestamp type arg unwaited
      usec held idle none
    have seqnum := (unharmed failed unpushed).1
    rw [same, polled_seqnum] at seqnum
    have ahead := congrArg UInt64.toNat seqnum
    rw [UInt64.toNat_add, UInt64.toNat_one] at ahead
    have small := (engine.obj ring).ring.seqnum.toNat_lt
    omega
  · intro room failed unpushed
    cases unpushed.symm.trans (doSpecial_pushes std polls timestamp type arg unwaited
      usec held idle room)

/-! ## The reports that follow -/

/-- No call gives up in the step, and numbers and timestamps stay in range. -/
structure Spares (ring : RingId) (engine : Engine) (action : Action) : Prop where
  waits : ∀ seqnum, (engine.obj ring).writer = .reserved seqnum →
    ((engine.act std action).obj ring).writer ≠ .idle
  numbers : (engine.obj ring).ring.seqnum.toNat < 2 ^ 52
  timestamps : ∀ record ∈ engine.shared.committed ring,
    record.timestamp.toNat + slotCount (engine.obj ring).ring.capacity ≤ 2 ^ 64

variable {std}

/-- A ring without an index entry has not been served yet. -/
def Unserved (ring : RingId) (engine : Engine) : Prop :=
  (∀ i, engine.ringAt i ≠ some ring) → engine.handed ring = 0

theorem Unserved.step {next : Engine} (unserved : engine.Unserved ring) (sound : engine.Sound)
    (numbered : engine.Numbered ring) (shape : engine.EngineStep std next)
    (unreaped : .reaped ring ∉ next.shared.trace) : next.Unserved ring := by
  have still (i : Nat) (found : engine.ringAt i = some ring) : ∃ j, next.ringAt j = some ring := by
    rcases shape.indexed sound found with kept | ⟨-, reaped⟩
    · exact kept
    · exact absurd reaped unreaped
  intro nowhere
  rcases shape.unconcerned_or_flush sound numbered.enabled ring with
    ⟨events, trace, silent, -⟩ | ⟨left, caller, te, rest, entry, -, found, valid, -⟩
  · have handed : next.handed ring = engine.handed ring := by
      rw [handed, Shared.flushed, trace, flushedTo_append, flushedTo_unaccounted silent,
        List.append_nil, handed, Shared.flushed]
    rw [handed]
    apply unserved
    intro i found
    obtain ⟨j, kept⟩ := still i found
    exact nowhere j kept
  · obtain ⟨j, kept⟩ := still te.tag (ringAt_eq_some.mpr ⟨entry, found, valid⟩)
    exact absurd kept (nowhere j)

theorem no_reports_of_spared (capacity : UInt32) (timesource : UInt64) {rings : RingId → RingObj}
    (fresh : ∀ ring, (rings ring).Fresh) (actions : List Action)
    (spared : AtEach (fun earlier action => Spares std ring
      ((create capacity false timesource rings).after std earlier) action) actions)
    (undropped : .dropped ring ∉
      ((create capacity false timesource rings).after std actions).shared.trace)
    (unreaped : .reaped ring ∉
      ((create capacity false timesource rings).after std actions).shared.trace) (count : UInt64) :
    .reported ring count ∉
      ((create capacity false timesource rings).after std actions).shared.trace := by
  have sound (actions : List Action) :
      ((create capacity false timesource rings).after std actions).Sound :=
    (create_sound capacity false timesource fresh).after std actions
  suffices all : ((create capacity false timesource rings).after std actions).Delivering ring ∧
      ((create capacity false timesource rings).after std actions).Numbered ring ∧
      ((create capacity false timesource rings).after std actions).Unserved ring
    from all.2.1.unreported count
  induction actions using List.reverseRecOn with
  | nil =>
      refine ⟨create_delivering capacity false timesource fresh ring, ?_, fun _ => rfl⟩
      exact create_numbered capacity timesource fresh ring
  | append_singleton actions last ih =>
      have spares := spared actions last [] rfl
      have known := sound actions
      rw [after, runs_concat] at undropped unreaped ⊢
      obtain ⟨events, trace⟩ : ∃ events, (act std (runs (act std) (create capacity false timesource
          rings) actions) last).shared.trace = (runs (act std) (create capacity false timesource
          rings) actions).shared.trace ++ events := by
        cases last with
        | engine trylock =>
            obtain ⟨events, trace, -⟩ := (known.tracked.shape std trylock).trace
            exact ⟨events, trace⟩
        | client op =>
            obtain ⟨events, trace, -⟩ := (Shared.apply_step _ op).trace
            exact ⟨events, trace⟩
      obtain ⟨delivering, numbered, unserved⟩ := ih spared.of_append
        (fun member => undropped (by rw [trace]; exact List.mem_append_left _ member))
        (fun member => unreaped (by rw [trace]; exact List.mem_append_left _ member))
      cases last with
      | engine trylock =>
          have shape := known.tracked.shape std trylock
          refine ⟨delivering.step known (climbing_of_bounded spares.timestamps) shape,
            numbered.step known delivering shape fun nowhere _ => ?_,
            unserved.step known numbered shape unreaped⟩
          exact (numbered.oldest_eq known delivering nowhere).trans (unserved nowhere)
      | client op =>
          have step := Shared.apply_step (runs (act std) (create capacity false timesource rings)
            actions).shared op
          refine ⟨delivering.view (.client known step),
            numbered.client undropped spares.waits spares.numbers (Shared.apply_writer ring _ op),
            fun nowhere => ?_⟩
          exact (congrArg List.length (step.flushed ring)).trans (unserved nowhere)

/-- A flush or timesource change spares the ring if and only if one of its
looks finds room, for without room it gives up with a number taken.  In a run
in which no call gives up and nothing is dropped, a ring that stays registered
is never reported to have dropped records. -/
theorem room_wait_unharmed_iff (std : StdSort) (polls : Interleaving) (ring : RingId)
    (timestamp : UInt64) (usec : UInt32) (engine : Engine) (held : (engine.obj ring).clients ≠ 0)
    (idle : (engine.obj ring).writer = .idle) :
    (Unharmed std polls ring usec engine (engine.doFlush std polls ring timestamp usec) ↔
      FindsRoom std polls ring usec engine) ∧
    (∀ timesource, Unharmed std polls ring usec engine
      (engine.doChangeTimesource std polls ring timesource timestamp usec) ↔
      FindsRoom std polls ring usec engine) ∧
    ∀ (capacity : UInt32) (timesource : UInt64) (rings : RingId → RingObj),
      (∀ ring, (rings ring).Fresh) → ∀ actions, AtEach (fun earlier action => Spares std ring
        ((create capacity false timesource rings).after std earlier) action) actions →
      .dropped ring ∉ ((create capacity false timesource rings).after std actions).shared.trace →
      .reaped ring ∉ ((create capacity false timesource rings).after std actions).shared.trace →
      ∀ count, .reported ring count ∉
        ((create capacity false timesource rings).after std actions).shared.trace :=
  ⟨doSpecial_unharmed_iff std polls timestamp sprFlush 0 false usec held idle,
    fun timesource => doSpecial_unharmed_iff std polls timestamp 1 timesource (usec == 0) usec held
      idle,
    fun capacity timesource _ fresh actions spared undropped unreaped count =>
      no_reports_of_spared capacity timesource fresh actions spared undropped unreaped count⟩

/-- A ring with room for one record. -/
def smallRing (actions : List Action) : Engine :=
  (create 4 false 0 fun _ => .made 1 false (ascii "ring")).after .insertion
    ([.client (.addNamed 0), .client (.markDirty 0)] ++ actions)

def postOne (timestamp : UInt64) : List Action :=
  [.client (.begin 0 { Post.zeroRecord 256 with timestamp }), .client (.finish 0)]

theorem room_wait_unharmed_empty_ring :
    ((smallRing []).obj 0).clients ≠ 0 ∧ ((smallRing []).obj 0).writer = .idle ∧
    Unharmed .insertion ⟨fun _ => [], [], [], fun _ => []⟩ 0 1000 (smallRing [])
      ((smallRing []).doFlush .insertion ⟨fun _ => [], [], [], fun _ => []⟩ 0 6 1000) :=
  ⟨by decide +kernel, by decide +kernel,
    (room_wait_unharmed_iff .insertion _ 0 6 1000 (smallRing []) (by decide +kernel)
      (by decide +kernel)).1.mpr ⟨0, Nat.zero_le _, by decide +kernel⟩⟩

/-- A flush of the full ring gives up and leaves the counter at 2, and a later
poll reports a drop in front of the record posted next. -/
theorem given_up_flush_reported :
    let returned := (smallRing (postOne 5)).doFlush .insertion
      ⟨fun _ => [], [], [], fun _ => []⟩ 0 6 0
    let later := returned.engine.after .insertion (List.replicate 11 (.engine true) ++ postOne 7 ++
      List.replicate 11 (.engine true))
    returned.result = false ∧ returned.pushed = false ∧
    (returned.engine.obj 0).ring.seqnum = 2 ∧ ((smallRing (postOne 5)).obj 0).ring.seqnum = 1 ∧
    ¬ Unharmed .insertion ⟨fun _ => [], [], [], fun _ => []⟩ 0 0 (smallRing (postOne 5)) returned ∧
    .reported 0 1 ∈ later.shared.trace ∧ (later.obj 0).ring.dropcnt = 0 := by
  intro returned later
  have waited : ((smallRing (postOne 5)).act .insertion (.client (.reserve 0))).wait .insertion 0
      (fun seen => (seen.obj 0).ring.room != 0) (fun _ => []) 0 =
      (false, 0, (smallRing (postOne 5)).act .insertion (.client (.reserve 0))) := by
    rw [wait, if_neg, if_pos]
    · rfl
    · decide
    · decide +kernel
  have result : returned = ⟨false, false, ((smallRing (postOne 5)).act .insertion
      (.client (.reserve 0))).act .insertion (.client (.giveUp 0))⟩ := by
    simp only [returned, doFlush, doSpecial, waited]
  have ahead : (returned.engine.obj 0).ring.seqnum = 2 := by
    rw [result]
    decide +kernel
  have reported : .reported 0 1 ∈ later.shared.trace ∧ (later.obj 0).ring.dropcnt = 0 := by
    simp only [later, result]
    decide +kernel
  refine ⟨by rw [result], by rw [result], ahead, by decide +kernel, fun unharmed => ?_, reported⟩
  have same := (unharmed (by rw [result]) (by rw [result])).1
  rw [ahead, polled_seqnum] at same
  revert same
  decide +kernel

end Engine

end Hogl.Polling
