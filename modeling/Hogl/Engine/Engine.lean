import Hogl.Engine.Shared
import Hogl.Post.RecordRing
import Hogl.Data.Sorting

namespace Hogl.Polling

open Hogl.Data Hogl.Ring

/-! # The engine thread

`process_rings` of `src/engine.cc` with everything it calls, as a machine
whose steps are the atomic accesses to what it shares with its clients.  The
program counter says where the thread stands; a client may act between any
two steps.
-/

/-- `tsobuf::entry`; the record is a slot of the ring that `tag` stands for. -/
structure TsoEntry where
  timestamp : UInt64
  slot : UInt32
  tag : Nat
deriving Repr, DecidableEq

/-- `tsobuf`; `entries` is the part of the array from `_head` up to `_tail`. -/
structure Tsobuf where
  capacity : Nat
  head : Nat
  entries : List TsoEntry
deriving Repr, DecidableEq

namespace Tsobuf

variable (tso : Tsobuf)

def resize (capacity : Nat) : Tsobuf := { capacity, head := 0, entries := [] }

def reset : Tsobuf := { tso with head := 0, entries := [] }

def tail : Nat := tso.head + tso.entries.length

def size : Nat := tso.entries.length

def full : Bool := tso.tail == tso.capacity

def push (entry : TsoEntry) : Tsobuf := { tso with entries := tso.entries ++ [entry] }

def pop : Option (TsoEntry × Tsobuf) :=
  match tso.entries with
  | [] => none
  | first :: rest => some (first, { tso with head := tso.head + 1, entries := rest })

def top : Option TsoEntry := tso.entries.head?

def flip : Tsobuf := { tso with head := 0 }

def less (left right : TsoEntry) : Bool := left.timestamp < right.timestamp

def sort (std : StdSort) : Tsobuf := { tso with entries := std.sort less tso.entries }

end Tsobuf

/-- `ring_index::entry`; an invalidated iterator has no ring. -/
structure IndexEntry where
  ring : Option RingId
  pit : PopIterator
  lastrec : Option UInt32
  seqnum : UInt64
deriving Repr, DecidableEq

/-- Who called `do_flush_tso`: `flush_full_tso` in the middle of a ring, or
`flush_tso`. -/
inductive Caller where
  | full (i : Nat) (tsoTs : UInt64)
  | final
deriving Repr, DecidableEq

inductive Pc where
  | idle
  /-- The index is dirty; the mutex is about to be tried. -/
  | rebuild
  /-- The head of the loop over the index. -/
  | scan (i : Nat)
  /-- Before `it.next()` in `process_rings_tso`. -/
  | walk (i : Nat) (tsoTs : UInt64)
  /-- In `do_flush_tso`, with `left` records to go. -/
  | doFlush (left : Nat) (caller : Caller)
  /-- Before `it.next()` in `process_rings_notso`. -/
  | drain (i : Nat)
  /-- Before `orphan()`, -/
  | orphan (i : Nat)
  /-- before `empty()`, -/
  | empty (i : Nat)
  /-- before the critical section of `kill_orphan`, -/
  | kill (i : Nat)
  /-- and before its `release()`. -/
  | release (i : Nat) (ring : RingId)
  /-- The head of the commit loop. -/
  | commit (i : Nat)
  | finish
  /-- A null pointer was followed. -/
  | halted
deriving Repr, DecidableEq

/-- The counters of `engine::stats` that the engine thread updates. -/
structure Stats where
  tsoFull : UInt64
  recsOut : UInt64
  recsDropped : UInt64
  loops : UInt64
  ringsIndexed : UInt64
  timesourceChanged : UInt64
deriving Repr, DecidableEq

structure Engine where
  shared : Shared
  /-- `_opts.features & DISABLE_TSO`. -/
  tsoDisabled : Bool
  index : List IndexEntry
  tso : Tsobuf
  leftover : Nat
  stats : Stats
  pc : Pc

/-- `internal::SPR_TIMESOURCE_CHANGE`. -/
def sprTimesourceChange : BitVec 64 := 1

/-- The size `engine::engine` gives the TSO buffer. -/
def tsoSize (capacity : UInt32) : Nat := if capacity = 0 then 2048 else capacity.toNat

namespace Engine

/-- `engine::engine`. -/
def create (capacity : UInt32) (tsoDisabled : Bool) (timesource : UInt64)
    (rings : RingId → RingObj) : Engine where
  shared := {
    rings, timesource
    ringMap := [], dirty := true, unmarked := []
    dropmark := true, tsofullmark := true
    trace := [] }
  tsoDisabled
  index := []
  tso := .resize (if tsoDisabled then 1 else tsoSize capacity)
  leftover := 0
  stats := ⟨0, 0, 0, 0, 0, 0⟩
  pc := .idle

variable (engine : Engine)

def log (event : Event) : Engine := { engine with shared := engine.shared.log event }

def goto (pc : Pc) : Engine := { engine with pc }

def fault : Engine := (engine.log .fault).goto .halted

def obj (ring : RingId) : RingObj := engine.shared.rings ring

def setRing (ring : RingId) (obj : RingObj) : Engine :=
  { engine with shared := engine.shared.setRing ring obj }

def setEntry (i : Nat) (entry : IndexEntry) : Engine :=
  { engine with index := engine.index.set i entry }

/-- Follow `_ring_index(i)->pit.ring()`. -/
def withRing (i : Nat) (body : IndexEntry → RingId → Engine) : Engine :=
  match engine.index[i]? with
  | some entry =>
      match entry.ring with
      | some ring => body entry ring
      | none => engine.fault
  | none => engine.fault

/-- `ring_index::operator() (ringbuf *)`. -/
def lookup (ring : RingId) : Option IndexEntry :=
  engine.index.find? fun entry => entry.ring == some ring

def newEntry (ring : RingId) : IndexEntry where
  ring := some ring
  pit := .reset (engine.obj ring).ring
  lastrec := none
  seqnum := ((engine.lookup ring).map (·.seqnum)).getD 0

/-- The comparison of `_ring_sorter`. -/
def ringSorter (left right : IndexEntry) : Bool :=
  match left.ring, right.ring with
  | some first, some second => (engine.obj second).prio < (engine.obj first).prio
  | _, _ => false

def rebuildRingIndex (std : StdSort) : Engine :=
  let entries := engine.shared.ringMap.map engine.newEntry
  { engine.log .indexed with
    shared.dirty := false
    index := std.sort engine.ringSorter entries
    stats.ringsIndexed := engine.stats.ringsIndexed + 1 }

def injectRecord (ringName : List UInt8) (timestamp seqnum : UInt64) (sect : InternalSection)
    (format : String) (args : List InjectedArg) : Engine :=
  engine.log (.injected ringName timestamp seqnum sect format args)

def switchTimesource (ring : RingId) (record : Record) : Engine :=
  let timesource := record.getArgVal64 1
  let injected := engine.injectRecord (engine.obj ring).name record.timestamp
    (UInt64.ofNat record.seqnum.toNat) .info "switching timesource from %s to %s"
    [.timesourceName engine.shared.timesource, .timesourceName timesource]
  { injected with
    shared.timesource := timesource
    shared.rings := fun other =>
      if other ∈ engine.shared.ringMap then { engine.obj other with timesource }
      else engine.obj other
    stats.timesourceChanged := engine.stats.timesourceChanged + 1 }

/-- A store into the slot of a record that is being flushed. -/
def ackSlot (ring : RingId) (slot : UInt32) : Engine :=
  let obj := engine.obj ring
  (engine.setRing ring { obj with ring := obj.ring.store slot (obj.ring.slots slot).ack }).log
    (.acked ring slot)

def flushRecord (ring : RingId) (slot : UInt32) : Engine :=
  let record := (engine.obj ring).ring.slots slot
  let entered := engine.log (.flushed ring record)
  let processed :=
    if record.special then
      let switched := if record.argtype = sprTimesourceChange
        then entered.switchTimesource ring record else entered
      switched.ackSlot ring slot
    else entered.log (.output ring record)
  { processed with stats.recsOut := processed.stats.recsOut + 1 }

/-- The drop detection of `do_flush_tso`. -/
def reportDrops (ring : RingId) (record : Record) (expected : UInt64) : Engine :=
  let seqnum := UInt64.ofNat record.seqnum.toNat
  if seqnum = expected then engine
  else
    let count := seqnum - expected
    let marked := if engine.shared.dropmark
      then engine.injectRecord (engine.obj ring).name (record.timestamp - 1) 0 .dropmark
        "dropped %llu record(s)" [.number count]
      else engine
    { marked.log (.reported ring count) with
      stats.recsDropped := engine.stats.recsDropped + count }

/-- The body of the loop in `do_flush_tso`. -/
def flushEntry (te : TsoEntry) : Engine :=
  engine.withRing te.tag fun entry ring =>
    let record := (engine.obj ring).ring.slots te.slot
    let seqnum := UInt64.ofNat record.seqnum.toNat + 1
    let reported := engine.reportDrops ring record entry.seqnum
    (reported.setEntry te.tag { entry with lastrec := some te.slot, seqnum }).flushRecord
      ring te.slot

/-- What follows `do_flush_tso` in its caller. -/
def flushReturn : Caller → Engine
  | .full i tsoTs =>
      let flipped := engine.tso.flip
      { engine.log (.tsoFull flipped.tail) with
        leftover := 0
        tso := flipped
        stats.tsoFull := engine.stats.tsoFull + 1
        pc := .walk i tsoTs }
  | .final => { engine with leftover := engine.tso.size, tso := engine.tso.reset, pc := .commit 0 }

def doFlushTso (left : Nat) (caller : Caller) : Engine :=
  match left, engine.tso.pop with
  | left + 1, some (te, tso) =>
      let popped := { engine with tso, pc := .doFlush left caller }
      popped.flushEntry te
  | _, _ => engine.flushReturn caller

/-- The mark that `flush_full_tso` puts in front of what it flushes. -/
def markTsoFull : Engine :=
  if engine.shared.tsofullmark then
    match engine.tso.top with
    | some te => engine.withRing te.tag fun _ ring =>
        engine.injectRecord (ascii "ENGINE") (((engine.obj ring).ring.slots te.slot).timestamp - 1)
          0 .tsofullmark "following records may be out of order" []
    | none => engine.fault
  else engine

def flushFullTso (std : StdSort) (i : Nat) (tsoTs : UInt64) : Engine :=
  { engine.markTsoFull with
    tso := engine.tso.sort std
    pc := .doFlush (engine.tso.size / 2) (.full i tsoTs) }

/-- How many records `flush_tso` asks for. -/
def flushSize : Nat :=
  let size := engine.tso.size
  let keep := engine.tso.capacity / 8
  let size := if keep < size then size - keep else 0
  if size < engine.leftover then engine.leftover else size

def flushTso (std : StdSort) : Engine :=
  { engine with
    tso := if engine.flushSize = 0 then engine.tso else engine.tso.sort std
    pc := .doFlush engine.flushSize .final }

/-- The head of both loops over the index, down to `it.reset()`. -/
def scanRing (std : StdSort) (i : Nat) : Engine :=
  match engine.index[i]? with
  | none => if engine.tsoDisabled then engine.goto .finish else engine.flushTso std
  | some entry =>
      match entry.ring with
      | none => engine.goto (.scan (i + 1))
      | some ring =>
          let pit := PopIterator.reset (engine.obj ring).ring
          ((engine.setEntry i { entry with pit }).log (.snapshot ring)).goto
            (if engine.tsoDisabled then .drain i else .walk i 0)

/-- Timestamps from the same ring never go backwards. -/
def adjust (raw tsoTs : UInt64) : UInt64 := if raw ≤ tsoTs then tsoTs + 1 else raw

/-- The iterator has moved to a record; the record goes into the TSO buffer. -/
def pushRecord (i : Nat) (entry : IndexEntry) (pit : PopIterator) (te : TsoEntry) : Engine :=
  { (engine.setEntry i { entry with pit }).log (.tsoPush engine.tso.tail) with
    tso := engine.tso.push te
    pc := .walk i te.timestamp }

/-- One round of the inner loop of `process_rings_tso`. -/
def walkRing (std : StdSort) (i : Nat) (tsoTs : UInt64) : Engine :=
  engine.withRing i fun entry ring =>
    match entry.pit.next (engine.obj ring).ring.capacity with
    | none => engine.goto (.orphan i)
    | some (slot, pit) =>
        let timestamp := adjust ((engine.obj ring).ring.slots slot).timestamp tsoTs
        let pushed := engine.pushRecord i entry pit ⟨timestamp, slot, i⟩
        if pushed.tso.full then pushed.flushFullTso std i timestamp else pushed

/-- `pop_iterator::commit` behind `rewind`, and `unblock`, which lets a blocked
writer try again. -/
def commitPit (i : Nat) (entry : IndexEntry) (ring : RingId) (pit : PopIterator) : Engine :=
  let obj := engine.obj ring
  (engine.setRing ring { obj with ring := pit.commit obj.ring }).setEntry i
    { entry with pit, lastrec := none }

/-- One round of the inner loop of `process_rings_notso`. -/
def drainRing (i : Nat) : Engine :=
  engine.withRing i fun entry ring =>
    match entry.pit.next (engine.obj ring).ring.capacity with
    | none => (engine.commitPit i entry ring entry.pit).goto (.orphan i)
    | some (slot, pit) => (engine.setEntry i { entry with pit }).flushRecord ring slot

/-- One round of the commit loop of `process_rings_tso`. -/
def commitRing (i : Nat) : Engine :=
  match engine.index[i]? with
  | none => engine.goto .finish
  | some entry =>
      match entry.lastrec, entry.ring with
      | some slot, some ring =>
          (engine.commitPit i entry ring (entry.pit.rewind slot)).goto (.commit (i + 1))
      | _, _ => engine.goto (.commit (i + 1))

def testOrphan (i : Nat) : Engine :=
  engine.withRing i fun _ ring =>
    if (engine.obj ring).refcnt = 1 then (engine.log (.orphaned ring)).goto (.empty i)
    else engine.goto (.scan (i + 1))

def testEmpty (i : Nat) : Engine :=
  engine.withRing i fun _ ring =>
    engine.goto (if (engine.obj ring).ring.empty then .kill i else .scan (i + 1))

/-- The critical section of `kill_orphan`. -/
def killOrphan (i : Nat) (trylock : Bool) : Engine :=
  if trylock then
    engine.withRing i fun entry ring =>
      { (engine.setEntry i { entry with ring := none, pit := ⟨0, 0⟩ }).log (.reaped ring) with
        shared.ringMap := engine.shared.ringMap.filter fun other =>
          (engine.obj other).name ≠ (engine.obj ring).name
        shared.dirty := true
        pc := .release i ring }
  else engine.goto (.scan (i + 1))

/-- The `release()` at the end of `kill_orphan`. -/
def releaseOrphan (i : Nat) (ring : RingId) : Engine :=
  let obj := engine.obj ring
  (engine.setRing ring { obj with refcnt := obj.refcnt - 1 }).goto (.scan (i + 1))

/-- The head of `process_rings`. -/
def processRings : Engine :=
  { engine.log .polled with
    stats.loops := engine.stats.loops + 1
    pc := if engine.shared.dirty then .rebuild else .scan 0 }

/-- One step of the engine thread; `trylock` is what `pthread_mutex_trylock`
would answer. -/
def step (std : StdSort) (trylock : Bool) : Engine :=
  match engine.pc with
  | .idle => engine.processRings
  | .rebuild => (if trylock then engine.rebuildRingIndex std else engine).goto (.scan 0)
  | .scan i => engine.scanRing std i
  | .walk i tsoTs => engine.walkRing std i tsoTs
  | .doFlush left caller => engine.doFlushTso left caller
  | .drain i => engine.drainRing i
  | .orphan i => engine.testOrphan i
  | .empty i => engine.testEmpty i
  | .kill i => engine.killOrphan i trylock
  | .release i ring => engine.releaseOrphan i ring
  | .commit i => engine.commitRing i
  | .finish => engine.goto .idle
  | .halted => engine

end Engine

inductive Action where
  | engine (trylock : Bool)
  | client (op : Op)
deriving Repr, DecidableEq

def Engine.act (std : StdSort) (engine : Engine) : Action → Engine
  | .engine trylock => engine.step std trylock
  | .client op => { engine with shared := engine.shared.apply op }

/-- The state after an interleaving of engine and client steps. -/
def Engine.after (std : StdSort) (start : Engine) (actions : List Action) : Engine :=
  runs (Engine.act std) start actions

/-- A ring as its constructor leaves it, referenced by its owners only. -/
structure RingObj.Fresh (obj : RingObj) : Prop where
  made : ∃ mask slots, IsMask mask ∧ obj.ring = .fresh mask obj.ring.blocking slots
  refcnt : obj.refcnt = obj.clients
  writer : obj.writer = .idle

/-- A ring with `mask + 1` slots that its creator alone holds. -/
def RingObj.made (mask : UInt32) (blocking : Bool) (name : List UInt8) : RingObj where
  ring := .fresh mask blocking fun _ => Post.zeroRecord 256
  name
  prio := 0
  immortal := false
  timesource := 0
  refcnt := 1
  clients := 1
  writer := .idle

theorem RingObj.made_fresh {mask : UInt32} (isMask : IsMask mask) (blocking : Bool)
    (name : List UInt8) : (RingObj.made mask blocking name).Fresh :=
  ⟨⟨mask, _, isMask, rfl⟩, rfl, rfl⟩

end Hogl.Polling
