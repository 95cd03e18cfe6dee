import Hogl.Record.Record
import Hogl.Ring.Ringbuf
import Hogl.Data.Runs

namespace Hogl.Polling

open Hogl.Data Hogl.Ring

/-! # What the engine shares with its clients

The rings, the ring map and the flags that `src/engine.cc` reads while other
threads post, flush, register and release rings.  Every field is changed by
one atomic step of a client or of the engine.  `trace` is a ghost: it lists
what happened, oldest first, and nothing reads it.
-/

/-- A `ringbuf *`. -/
abbrev RingId := Nat

/-- Where the one thread that may push into a ring stands: nowhere, between
`begin` and `finish`, or inside `do_flush` or `do_change_timesource`. -/
inductive Writer where
  | idle
  | filled
  | reserved (seqnum : UInt64)
  | armed
  | awaiting (slot : UInt32)
deriving Repr, DecidableEq

structure RingObj where
  ring : Ringbuf Record
  name : List UInt8
  prio : Int
  immortal : Bool
  timesource : UInt64
  /-- `_refcnt`. -/
  refcnt : Nat
  /-- The references that clients hold (ghost). -/
  clients : Nat
  writer : Writer

/-- `internal::section_ids`, those the engine posts under. -/
inductive InternalSection where
  | info
  | dropmark
  | tsofullmark
deriving Repr, DecidableEq

/-- The last arguments of `inject_record`: numbers or timesource names. -/
inductive InjectedArg where
  | number (value : UInt64)
  | timesourceName (timesource : UInt64)
deriving Repr, DecidableEq

inductive Event where
  /-- The ring was inserted into the ring map. -/
  | registered (ring : RingId)
  /-- A client took a reference. -/
  | acquired (ring : RingId)
  /-- A post took a sequence number. -/
  | begun (ring : RingId)
  /-- A flush or a timesource change took a sequence number. -/
  | reserved (ring : RingId)
  | committed (ring : RingId) (record : Record)
  | dropped (ring : RingId)
  /-- A flush or a timesource change returned what its wait ended with. -/
  | returned (ring : RingId) (result : Bool)
  /-- A timesource change returned success without waiting. -/
  | unwaited (ring : RingId)
  /-- `process_rings` was entered. -/
  | polled
  /-- `rebuild_ring_index` replaced the index. -/
  | indexed
  /-- `pop_iterator::reset`. -/
  | snapshot (ring : RingId)
  /-- `tsobuf::push` with this `_tail`. -/
  | tsoPush (tail : Nat)
  /-- `flush_full_tso` left this `_tail` behind. -/
  | tsoFull (tail : Nat)
  /-- The engine saw `orphan()`. -/
  | orphaned (ring : RingId)
  /-- `kill_orphan` erased the ring. -/
  | reaped (ring : RingId)
  /-- `count` records of the ring were added to `recs_dropped`. -/
  | reported (ring : RingId) (count : UInt64)
  /-- `flush_record` was called. -/
  | flushed (ring : RingId) (record : Record)
  /-- `flush_record` acknowledged the special record in this slot. -/
  | acked (ring : RingId) (slot : UInt32)
  /-- The output processed a record of the ring. -/
  | output (ring : RingId) (record : Record)
  /-- The output processed a record made by `inject_record`. -/
  | injected (ringName : List UInt8) (timestamp seqnum : UInt64) (sect : InternalSection)
      (format : String) (args : List InjectedArg)
  /-- A null ring pointer was followed. -/
  | fault
deriving Repr, DecidableEq

/-- The records committed to one ring, oldest first. -/
def committedTo (ring : RingId) (trace : List Event) : List Record :=
  trace.filterMap fun
    | .committed other record => if other = ring then some record else none
    | _ => none

/-- The records of one ring handed to `flush_record`, oldest first. -/
def flushedTo (ring : RingId) (trace : List Event) : List Record :=
  trace.filterMap fun
    | .flushed other record => if other = ring then some record else none
    | _ => none

structure Shared where
  rings : RingId → RingObj
  /-- `_ring_map`, in key order; the key of a ring is its own name. -/
  ringMap : List RingId
  /-- `_ring_index.dirty`. -/
  dirty : Bool
  /-- The rings whose `add_ring(name)` has still to set `dirty` (ghost). -/
  unmarked : List RingId
  /-- The engine's `_timesource`. -/
  timesource : UInt64
  /-- `_internal_area->test(DROPMARK)`. -/
  dropmark : Bool
  /-- `_internal_area->test(TSOFULLMARK)`. -/
  tsofullmark : Bool
  trace : List Event

namespace Shared

variable (shared : Shared)

def log (event : Event) : Shared := { shared with trace := shared.trace ++ [event] }

def setRing (ring : RingId) (obj : RingObj) : Shared :=
  { shared with rings := Function.update shared.rings ring obj }

def committed (ring : RingId) : List Record := committedTo ring shared.trace

def flushed (ring : RingId) : List Record := flushedTo ring shared.trace

/-- `_ring_map.find(name)`. -/
def findRing (name : List UInt8) : Option RingId :=
  shared.ringMap.find? fun ring => (shared.rings ring).name = name

/-- The place of a new key in the ordered ring map. -/
def insertKey (ring : RingId) : List RingId → List RingId
  | [] => [ring]
  | first :: rest =>
      if (shared.rings ring).name < (shared.rings first).name then ring :: first :: rest
      else first :: insertKey ring rest

/-- `ringbuf::hold`, with the reference going to a client. -/
def hold (ring : RingId) : Shared :=
  let obj := shared.rings ring
  (shared.setRing ring { obj with refcnt := obj.refcnt + 1, clients := obj.clients + 1 }).log
    (.acquired ring)

/-- `ringbuf::release` of a client's reference. -/
def release (ring : RingId) : Shared :=
  let obj := shared.rings ring
  shared.setRing ring { obj with refcnt := obj.refcnt - 1, clients := obj.clients - 1 }

/-- An insertion into the ring map; the engine's reference is the new one. -/
def register (ring : RingId) (timesource : UInt64) : Shared :=
  let obj := shared.rings ring
  { (shared.setRing ring { obj with refcnt := obj.refcnt + 1, timesource }).log (.registered ring)
    with ringMap := shared.insertKey ring shared.ringMap }

/-- `push_commit` by the writer of the ring, which then stands at `next`.  A
writer that has to block stays where it is and tries again. -/
def pushCommit (ring : RingId) (next : Writer) : Shared :=
  let obj := shared.rings ring
  match obj.ring.pushCommit with
  | (.committed, pushed) =>
      (shared.setRing ring { obj with ring := pushed, writer := next }).log
        (.committed ring (obj.ring.slots obj.ring.tail))
  | (.dropped, pushed) =>
      (shared.setRing ring { obj with ring := pushed, writer := next }).log (.dropped ring)
  | (.blocked, _) => shared

/-- A return from the wait for an acknowledgement. -/
def leave (ring : RingId) (event : Event) : Shared :=
  let obj := shared.rings ring
  match obj.writer with
  | .awaiting _ =>
      if obj.clients = 0 then shared
      else (shared.setRing ring { obj with writer := .idle }).log event
  | _ => shared

end Shared

/-- One atomic step of a client. -/
inductive Op where
  /-- The critical section of `add_ring(name, opts)`, for the ring it made. -/
  | addNamed (ring : RingId)
  /-- The assignment to `dirty` behind that critical section. -/
  | markDirty (ring : RingId)
  /-- `add_ring(ringbuf *)`. -/
  | addRing (ring : RingId)
  /-- `find_ring`, or a copy of a reference. -/
  | hold (ring : RingId)
  | release (ring : RingId)
  /-- `begin_unlocked` and the argument encoding. -/
  | begin (ring : RingId) (record : Record)
  /-- `finish_unlocked`. -/
  | finish (ring : RingId)
  /-- `do_flush` and `do_change_timesource` take a sequence number, -/
  | reserve (ring : RingId)
  /-- give up while there is no room, -/
  | giveUp (ring : RingId)
  /-- fill the special record once there is room, -/
  | arm (ring : RingId) (timestamp : UInt64) (type : UInt32) (arg1 arg2 : UInt64)
  /-- push it, -/
  | publish (ring : RingId)
  /-- see the acknowledgement, -/
  | observe (ring : RingId)
  /-- stop waiting for it, -/
  | abandon (ring : RingId)
  /-- or, for a timesource change without a timeout, do not wait at all. -/
  | skipWait (ring : RingId)
  /-- `apply_mask` on the internal area. -/
  | mask (dropmark tsofullmark : Bool)
deriving Repr, DecidableEq

namespace Shared

/-- A step that is not enabled changes nothing. -/
def apply (shared : Shared) : Op → Shared
  | .addNamed ring =>
      let obj := shared.rings ring
      if obj.clients = 0 ∨ ring ∈ shared.ringMap then shared
      else match shared.findRing obj.name with
        | none =>
            let added := shared.register ring obj.timesource
            { added with unmarked := ring :: added.unmarked }
        | some existing => (shared.hold existing).release ring
  | .markDirty ring =>
      if ring ∈ shared.unmarked then
        { shared with dirty := true, unmarked := shared.unmarked.erase ring }
      else shared
  | .addRing ring =>
      let obj := shared.rings ring
      if obj.clients = 0 ∧ obj.immortal = false then shared
      else match shared.findRing obj.name with
        | none => { shared.register ring shared.timesource with dirty := true }
        | some _ => shared
  | .hold ring =>
      let obj := shared.rings ring
      if ring ∈ shared.ringMap ∨ 0 < obj.clients ∨ obj.immortal then shared.hold ring else shared
  | .release ring => if (shared.rings ring).clients = 0 then shared else shared.release ring
  | .begin ring record =>
      let obj := shared.rings ring
      if obj.clients = 0 ∨ obj.writer ≠ .idle then shared
      else
        let filled := { record with seqnum := BitVec.ofNat 52 obj.ring.seqnum.toNat }
        (shared.setRing ring { obj with
          ring := (obj.ring.store obj.ring.pushBegin filled).incSeqnum
          writer := .filled }).log (.begun ring)
  | .finish ring =>
      let obj := shared.rings ring
      if obj.clients = 0 ∨ obj.writer ≠ .filled then shared else shared.pushCommit ring .idle
  | .reserve ring =>
      let obj := shared.rings ring
      if obj.clients = 0 ∨ obj.writer ≠ .idle then shared
      else (shared.setRing ring { obj with
        ring := obj.ring.incSeqnum
        writer := .reserved obj.ring.seqnum }).log (.reserved ring)
  | .giveUp ring =>
      let obj := shared.rings ring
      match obj.writer with
      | .reserved _ =>
          if obj.clients = 0 ∨ obj.ring.room ≠ 0 then shared
          else (shared.setRing ring { obj with writer := .idle }).log (.returned ring false)
      | _ => shared
  | .arm ring timestamp type arg1 arg2 =>
      let obj := shared.rings ring
      match obj.writer with
      | .reserved seqnum =>
          if obj.clients = 0 ∨ obj.ring.room = 0 then shared
          else
            let slot := obj.ring.pushBegin
            let record := { obj.ring.slots slot with
              timestamp
              seqnum := BitVec.ofNat 52 seqnum.toNat }
            shared.setRing ring { obj with
              ring := obj.ring.store slot (record.makeSpecial type arg1 arg2)
              writer := .armed }
      | _ => shared
  | .publish ring =>
      let obj := shared.rings ring
      if obj.clients = 0 ∨ obj.writer ≠ .armed then shared
      else shared.pushCommit ring (.awaiting obj.ring.tail)
  | .observe ring =>
      let obj := shared.rings ring
      match obj.writer with
      | .awaiting slot =>
          if obj.clients = 0 ∨ (obj.ring.slots slot).acked = false then shared
          else (shared.setRing ring { obj with writer := .idle }).log (.returned ring true)
      | _ => shared
  | .abandon ring => shared.leave ring (.returned ring false)
  | .skipWait ring => shared.leave ring (.unwaited ring)
  | .mask dropmark tsofullmark => { shared with dropmark, tsofullmark }

end Shared

end Hogl.Polling
