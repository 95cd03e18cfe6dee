import Hogl.Data.BoundedFifo
import Hogl.Ring.Ringbuf

namespace Hogl.Ring

open Hogl.Data

/-! # One writer and one reader on a ring

A session interleaves the writer interface of a non-blocking ring with the
reader interface.  Besides the ring it keeps what the two parties hold: an
open pop transaction, an iterator with the records `next` returned, and an
open post.  The lists `committed` and `delivered` record what was published
and what the head has moved past. -/

structure Session (α : Type) where
  ring : Ringbuf α
  popping : Bool
  iterator : Option PopIterator
  /-- Returned by `next` since the last `reset` or `commit` of the iterator. -/
  returned : List UInt32
  /-- Returned by `next` at any time. -/
  everReturned : List UInt32
  posting : Bool
  committed : List α
  delivered : List α

inductive SessionStep (α : Type) where
  | pushBegin
  | write (value : α)
  | pushCommit
  | beginUnlocked (header : UInt64 → α)
  | finishUnlocked
  | popBegin
  | popCommit
  | reset
  | next
  | rewind (slot : UInt32)
  | commit

namespace Session

variable {α : Type}

def fresh (mask : UInt32) (slots : UInt32 → α) : Session α :=
  { ring := .fresh mask false slots, popping := false, iterator := none, returned := [],
    everReturned := [], posting := false, committed := [], delivered := [] }

/-- `push_commit`, with the record it published if there was room.  A full
blocking ring has no step here: its writer waits. -/
def pushCommit (session : Session α) : Option (Session α × FifoEvent α) :=
  let value := session.ring.slots session.ring.tail
  match session.ring.pushCommit with
  | (.committed, ring) =>
      some ({ session with ring, committed := session.committed ++ [value] }, .enqueued value)
  | (.dropped, ring) => some ({ session with ring }, .dropped)
  | (.blocked, _) => none

/-- Move the head and note the records it passes. -/
def moveHead (session : Session α) (head : UInt32) : Session α :=
  let count := (head - session.ring.head) &&& session.ring.capacity
  { session with
    ring := session.ring.commitHead head
    delivered := session.delivered ++
      (session.ring.slotsAhead count.toNat).map session.ring.slots }

/-- One step of either party.  `pop_commit` closes a transaction that
`pop_begin` opened, and either way of consuming invalidates what the other
one holds.  Which records `rewind` may be given is left to `mayRewind`. -/
def step (mayRewind : Session α → UInt32 → Bool) (session : Session α) :
    SessionStep α → Option (Session α × FifoEvent α)
  | .pushBegin => some (session, .staged)
  | .write value =>
      some ({ session with ring := session.ring.store session.ring.pushBegin value }, .staged)
  | .pushCommit => session.pushCommit
  | .beginUnlocked header =>
      if session.posting then none
      else
        let ring := session.ring.store session.ring.pushBegin (header session.ring.seqnum)
        some ({ session with ring := ring.incSeqnum, posting := true }, .staged)
  | .finishUnlocked =>
      if session.posting then { session with posting := false }.pushCommit else none
  | .popBegin =>
      match session.ring.popBegin with
      | none => some (session, .peeked none)
      | some slot => some ({ session with popping := true }, .peeked
        (some (session.ring.slots slot)))
  | .popCommit =>
      if session.popping then
        some ({ session.moveHead session.ring.popCommit.head with
          popping := false, iterator := none, returned := [] }, .dequeued)
      else none
  | .reset =>
      some ({ session with iterator := some (.reset session.ring), returned := [] }, .opened)
  | .next => do
      let iterator ← session.iterator
      match iterator.next session.ring.capacity with
      | none => some (session, .walked none)
      | some (slot, iterator) =>
          some ({ session with
            iterator := some iterator
            returned := session.returned ++ [slot]
            everReturned := session.everReturned ++ [slot] },
            .walked (some (session.ring.slots slot)))
  | .rewind slot => do
      let iterator ← session.iterator
      if mayRewind session slot then
        some ({ session with iterator := some (iterator.rewind slot) },
          .rewound ((slot - session.ring.head) &&& session.ring.capacity).toNat)
      else none
  | .commit => do
      let iterator ← session.iterator
      some ({ session.moveHead (iterator.commit session.ring).head with
        popping := false, returned := [] }, .closed)

def run (mayRewind : Session α → UInt32 → Bool) :
    Session α → List (SessionStep α) → Option (Session α × List (FifoEvent α))
  | session, [] => some (session, [])
  | session, first :: rest => do
      let (middle, event) ← session.step mayRewind first
      let (final, events) ← middle.run mayRewind rest
      some (final, event :: events)

/-- Rewind to any record that `next` has ever returned. -/
def rewindsToReturned (session : Session α) (slot : UInt32) : Bool :=
  session.everReturned.contains slot

/-- Rewind to a record that `next` returned since the last reset or commit. -/
def rewindsToOpen (session : Session α) (slot : UInt32) : Bool :=
  session.returned.contains slot

theorem run_cons_invert {mayRewind : Session α → UInt32 → Bool} {before after : Session α}
    {first : SessionStep α} {rest : List (SessionStep α)} {events : List (FifoEvent α)}
    (ran : before.run mayRewind (first :: rest) = some (after, events)) :
    ∃ middle event events', before.step mayRewind first = some (middle, event) ∧
      middle.run mayRewind rest = some (after, events') ∧ events = event :: events' := by
  cases stepped : before.step mayRewind first with
  | none => simp [run, stepped] at ran
  | some result =>
      obtain ⟨middle, event⟩ := result
      cases remaining : middle.run mayRewind rest with
      | none => simp [run, stepped, remaining] at ran
      | some outcome =>
          obtain ⟨final, events'⟩ := outcome
          simp only [run, stepped, remaining, Option.bind_eq_bind, Option.bind_some,
            Option.some.injEq, Prod.mk.injEq] at ran
          obtain ⟨rfl, rfl⟩ := ran
          exact ⟨middle, event, events', rfl, remaining, rfl⟩

end Session

end Hogl.Ring
