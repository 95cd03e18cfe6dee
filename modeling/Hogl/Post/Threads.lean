import Hogl.Data.Runs
import Hogl.Data.Turns
import Hogl.Post.Posting
import Hogl.Ring.Refinement
import Mathlib.Data.List.Forall2

namespace Hogl.Post

open Hogl.Data Hogl.Ring

/-! # Many threads on one ring

`push` of `include/hogl/post.hpp` and the functions of `src/post.cc` it calls,
with `lock` and `unlock` of the ring, one access to shared memory at a time.
The reader takes its steps in between. -/

abbrev ThreadId := Nat

/-- The arguments of a call of `push`. -/
structure PushCall where
  area : Option Area
  sect : UInt32
  args : List Arg
  scratch : Argpack
  few : args.length ≤ Record.nargs
  bounded : ∀ arg ∈ args, arg.Bounded

/-- What a thread does next; `slot` is its record pointer. -/
inductive PushPc where
  | outside
  | lock (call : PushCall)
  | pushBegin (call : PushCall)
  /-- `_seqnum++` reads, -/
  | loadSeqnum (call : PushCall) (slot : UInt32)
  /-- and writes. -/
  | storeSeqnum (call : PushCall) (slot : UInt32) (seqnum : UInt64)
  | setSeqnum (call : PushCall) (slot : UInt32) (seqnum : UInt64)
  | setTimestamp (call : PushCall) (slot : UInt32)
  | setArea (call : PushCall) (slot : UInt32)
  | setSection (call : PushCall) (slot : UInt32)
  | setArgs (call : PushCall) (slot : UInt32)
  | loadTail (call : PushCall)
  /-- The condition of the loop in `push_commit`. -/
  | testHead (call : PushCall) (tail : UInt32)
  | commitTail (call : PushCall) (tail : UInt32)
  | loadDropcnt (call : PushCall)
  | storeDropcnt (call : PushCall) (dropcnt : UInt64)
  | unlock

namespace PushPc

/-- Between the return of `lock` and that of `unlock`. -/
def inside : PushPc → Bool
  | .outside | .lock _ => false
  | _ => true

/-- The call that is neither published nor counted as dropped. -/
def pending : PushPc → List PushCall
  | .outside | .unlock => []
  | .lock call | .pushBegin call | .loadSeqnum call _ | .storeSeqnum call _ _
  | .setSeqnum call _ _ | .setTimestamp call _ | .setArea call _ | .setSection call _
  | .setArgs call _ | .loadTail call | .testHead call _ | .commitTail call _
  | .loadDropcnt call | .storeDropcnt call _ => [call]

end PushPc

/-- A call that has come to its end. -/
structure Posted where
  thread : ThreadId
  call : PushCall
  published : Bool

/-- The threads, the ring they push into and its reader.  `calls`, `history`
and `readings` are ghosts: the calls each thread made, those that came to their
end, and what was read from the timesource. -/
structure Threads where
  session : Session Record
  shared : Bool
  recTailroom : UInt32
  mutex : Option ThreadId
  pc : ThreadId → PushPc
  clock : UInt64
  calls : ThreadId → List PushCall
  history : List Posted
  readings : List UInt64

inductive ThreadAction where
  | call (thread : ThreadId) (call : PushCall)
  | step (thread : ThreadId)
  /-- The timesource moves on. -/
  | tick (clock : UInt64)
  | read (step : SessionStep Record)

/-- The steps of the reader. -/
def readerStep : SessionStep Record → Bool
  | .popBegin | .popCommit | .reset | .next | .rewind _ | .commit => true
  | _ => false

namespace Threads

def create (ring : RecordRing) (shared : Bool) (clock : UInt64) : Threads where
  session := {
    ring := ring.ring, popping := false, iterator := none, returned := [], everReturned := []
    posting := false, committed := [], delivered := [] }
  shared
  recTailroom := ring.recTailroom
  mutex := none
  pc _ := .outside
  clock
  calls _ := []
  history := []
  readings := []

variable (state : Threads)

def ring : Ringbuf Record := state.session.ring

def setRing (ring : Ringbuf Record) : Threads :=
  { state with session := { state.session with ring } }

def store (slot : UInt32) (record : Record) : Threads :=
  state.setRing (state.ring.store slot record)

def goto (thread : ThreadId) (pc : PushPc) : Threads :=
  { state with pc := Function.update state.pc thread pc }

/-- The call comes to its end. -/
def finish (thread : ThreadId) (call : PushCall) (published : Bool) : Threads :=
  goto { state with history := state.history ++ [{ thread, call, published }] } thread .unlock

/-- The next access of a thread to shared memory.  The waiter in `block` is
one that tests the head again. -/
def advance (thread : ThreadId) : Threads :=
  match state.pc thread with
  | .outside => state
  | .lock call =>
      if state.shared then
        if state.mutex = none then
          { state with mutex := some thread }.goto thread (.pushBegin call)
        else state
      else state.goto thread (.pushBegin call)
  | .pushBegin call => state.goto thread (.loadSeqnum call state.ring.pushBegin)
  | .loadSeqnum call slot => state.goto thread (.storeSeqnum call slot state.ring.seqnum)
  | .storeSeqnum call slot seqnum =>
      (state.setRing { state.ring with seqnum := seqnum + 1 }).goto thread
        (.setSeqnum call slot seqnum)
  | .setSeqnum call slot seqnum =>
      (state.store slot { state.ring.slots slot with seqnum := BitVec.ofNat 52 seqnum.toNat }).goto
        thread (.setTimestamp call slot)
  | .setTimestamp call slot =>
      { state.store slot { state.ring.slots slot with timestamp := state.clock } with
        readings := state.readings ++ [state.clock] }.goto thread (.setArea call slot)
  | .setArea call slot =>
      (state.store slot { state.ring.slots slot with area := call.area }).goto thread
        (.setSection call slot)
  | .setSection call slot =>
      (state.store slot { state.ring.slots slot with sect := BitVec.ofNat 12 call.sect.toNat }).goto
        thread (.setArgs call slot)
  | .setArgs call slot =>
      match (state.ring.slots slot).encodeArgs state.recTailroom call.args call.scratch with
      | none => state
      | some record => (state.store slot record).goto thread (.loadTail call)
  | .loadTail call => state.goto thread (.testHead call state.ring.tail)
  | .testHead call tail =>
      if state.ring.head = tail then
        if state.ring.blocking then state else state.goto thread (.loadDropcnt call)
      else state.goto thread (.commitTail call tail)
  | .commitTail call tail =>
      { state with session := { state.session with
          ring := state.ring.commitTail ((tail + 1) &&& state.ring.capacity)
          committed := state.session.committed ++ [state.ring.slots state.ring.tail] } }.finish
        thread call true
  | .loadDropcnt call => state.goto thread (.storeDropcnt call state.ring.dropcnt)
  | .storeDropcnt call dropcnt =>
      (state.setRing { state.ring with dropcnt := dropcnt + 1 }).finish thread call false
  | .unlock =>
      { state with mutex := if state.shared then none else state.mutex }.goto thread .outside

def begin (thread : ThreadId) (call : PushCall) : Threads :=
  match state.pc thread with
  | .outside =>
      { state with
        calls := Function.update state.calls thread (state.calls thread ++ [call]) }.goto thread
        (.lock call)
  | _ => state

/-- A step that is not enabled changes nothing. -/
def read (step : SessionStep Record) : Threads :=
  if readerStep step then
    match state.session.step Session.rewindsToOpen step with
    | none => state
    | some (session, _) => { state with session }
  else state

def act : ThreadAction → Threads
  | .call thread call => state.begin thread call
  | .step thread => state.advance thread
  | .tick clock => { state with clock }
  | .read step => state.read step

def after (start : Threads) (actions : List ThreadAction) : Threads := runs act start actions

/-- The published calls with their numbers among all calls. -/
def published (history : List Posted) : List (Posted × Nat) :=
  history.zipIdx.filter fun posted => posted.1.published

/-- The calls of one thread that came to their end. -/
def ended (history : List Posted) (thread : ThreadId) : List PushCall :=
  (history.filter fun posted => posted.thread = thread).map Posted.call

end Threads

/-- The record is the one of this call alone, under this number. -/
structure PushCall.Shows (call : PushCall) (tailroom : UInt32) (number : Nat) (record : Record) :
    Prop where
  seqnum : record.seqnum = BitVec.ofNat 52 number
  area : record.area = call.area
  sect : record.sect = BitVec.ofNat 12 call.sect.toNat
  holds : record.Holds call.args tailroom.toNat

/-! ## What each thread relies on -/

namespace Threads

variable (state : Threads)

/-- The record that is being filled. -/
def filling : Record := state.ring.slots state.ring.tail

/-- So many numbers were taken, besides those of the calls that ended. -/
def Taken (count : Nat) : Prop :=
  state.ring.seqnum = UInt64.ofNat (state.history.length + count)

/-- The record being filled has a reading behind those of the published ones. -/
def Stamped : Prop :=
  (state.session.committed.map Record.timestamp ++ [state.filling.timestamp]).Sublist
    state.readings

/-- The record being filled is complete. -/
def Filled (call : PushCall) : Prop :=
  state.Taken 1 ∧ state.Stamped ∧
    call.Shows state.recTailroom state.history.length state.filling

/-- What the thread inside knows about the ring. -/
def Stage : PushPc → Prop
  | .outside | .lock _ | .pushBegin _ | .unlock => state.Taken 0
  | .loadSeqnum _ slot => slot = state.ring.tail ∧ state.Taken 0
  | .storeSeqnum _ slot seqnum =>
      slot = state.ring.tail ∧ seqnum = UInt64.ofNat state.history.length
  | .setSeqnum _ slot seqnum =>
      slot = state.ring.tail ∧ state.Taken 1 ∧ seqnum = UInt64.ofNat state.history.length
  | .setTimestamp _ slot =>
      slot = state.ring.tail ∧ state.Taken 1 ∧
        state.filling.seqnum = BitVec.ofNat 52 state.history.length
  | .setArea _ slot =>
      slot = state.ring.tail ∧ state.Taken 1 ∧
        state.filling.seqnum = BitVec.ofNat 52 state.history.length ∧ state.Stamped
  | .setSection call slot =>
      slot = state.ring.tail ∧ state.Taken 1 ∧
        state.filling.seqnum = BitVec.ofNat 52 state.history.length ∧ state.Stamped ∧
        state.filling.area = call.area
  | .setArgs call slot =>
      slot = state.ring.tail ∧ state.Taken 1 ∧
        state.filling.seqnum = BitVec.ofNat 52 state.history.length ∧ state.Stamped ∧
        state.filling.area = call.area ∧ state.filling.sect = BitVec.ofNat 12 call.sect.toNat
  | .loadTail call => state.Filled call
  | .testHead call tail => tail = state.ring.tail ∧ state.Filled call
  | .commitTail call tail =>
      tail = state.ring.tail ∧ state.ring.head ≠ state.ring.tail ∧ state.Filled call
  | .loadDropcnt _ => state.Taken 1 ∧ state.ring.blocking = false
  | .storeDropcnt _ dropcnt =>
      state.Taken 1 ∧ state.ring.blocking = false ∧ dropcnt = state.ring.dropcnt

/-- The session as it is seen by a ring whose writer never waits. -/
def view : Session Record :=
  { state.session with ring := { state.ring with blocking := false } }

/-- What holds between any two accesses. -/
structure Kept (tailroom : UInt32) : Prop where
  room : Record.argvalSize ≤ tailroom.toNat
  fixed : state.recTailroom = tailroom
  sized : ∀ slot, (state.ring.slots slot).argval.length = tailroom.toNat
  queued : ∃ fifo, state.view.Refines fifo
  dropped : state.ring.dropcnt =
    UInt64.ofNat (state.history.countP fun posted => !posted.published)
  patient : state.ring.blocking = true → ∀ posted ∈ state.history, posted.published = true
  shown : List.Forall₂ (fun posted record => posted.1.call.Shows tailroom posted.2 record)
    (published state.history) state.session.committed
  stamps : (state.session.committed.map Record.timestamp).Sublist state.readings

/-- The invariant of every run. -/
structure Orderly (sole : ThreadId) (tailroom : UInt32) : Prop where
  turns : Turns state.shared sole state.mutex fun thread => (state.pc thread).inside
  lonely : state.shared = false → ∀ thread, thread ≠ sole → state.pc thread = .outside
  kept : state.Kept tailroom
  stage : ∀ thread, (state.pc thread).inside = true → state.Stage (state.pc thread)
  idle : (∀ thread, (state.pc thread).inside = false) → state.Taken 0
  accounted : ∀ thread, ended state.history thread ++ (state.pc thread).pending =
    state.calls thread

/-! ## What an access keeps -/

theorem published_concat (history : List Posted) (posted : Posted) :
    published (history ++ [posted]) = published history ++
      if posted.published then [(posted, history.length)] else [] := by
  rw [published, List.zipIdx_append, List.filter_append, Nat.zero_add]
  cases kind : posted.published <;> simp [published, kind]

theorem ended_concat (history : List Posted) (posted : Posted) (thread : ThreadId) :
    ended (history ++ [posted]) thread = ended history thread ++
      if posted.thread = thread then [posted.call] else [] := by
  rw [ended, List.filter_append, List.map_append]
  by_cases own : posted.thread = thread <;> simp [ended, own]

section Access

variable {state : Threads} {sole thread : ThreadId} {tailroom : UInt32}

/-- The counters of a ring are none of the queue's business. -/
theorem counters_refines {session : Session Record} {fifo : BoundedFifo Record}
    (refines : session.Refines fifo) (seqnum dropcnt : UInt64) :
    { session with ring := { session.ring with seqnum, dropcnt } }.Refines fifo :=
  { refines with
    spans := ⟨refines.spans.isMask, refines.spans.ordered, refines.spans.bounded,
      refines.spans.tail, refines.spans.head⟩ }

theorem Kept.seqnum (kept : state.Kept tailroom) (seqnum : UInt64) :
    (state.setRing { state.ring with seqnum }).Kept tailroom := by
  obtain ⟨fifo, refines⟩ := kept.queued
  exact { kept with queued := ⟨fifo, counters_refines refines seqnum state.ring.dropcnt⟩ }

/-- A store into the record that is being filled. -/
theorem Kept.store (kept : state.Kept tailroom) {record : Record}
    (sized : record.argval.length = tailroom.toNat) :
    (state.store state.ring.tail record).Kept tailroom := by
  obtain ⟨fifo, refines⟩ := kept.queued
  refine { kept with sized := fun slot => ?_, queued := ⟨fifo, refines.store_tail record⟩ }
  change (if slot = state.ring.tail then record else state.ring.slots slot).argval.length = _
  by_cases own : slot = state.ring.tail
  · rw [if_pos own]
    exact sized
  · rw [if_neg own]
    exact kept.sized slot

@[simp] theorem store_filling (record : Record) :
    (state.store state.ring.tail record).filling = record :=
  if_pos rfl

theorem Kept.read (kept : state.Kept tailroom) (clock : UInt64) :
    { state with readings := state.readings ++ [clock] }.Kept tailroom :=
  { kept with stamps := kept.stamps.trans (List.sublist_append_left _ _) }

/-- The record that was filled is published. -/
theorem Kept.commit (kept : state.Kept tailroom) {call : PushCall} (filled : state.Filled call)
    (space : state.ring.head ≠ state.ring.tail) :
    ({ state with session := { state.session with
        ring := state.ring.commitTail ((state.ring.tail + 1) &&& state.ring.capacity)
        committed := state.session.committed ++ [state.filling] } }.finish thread call
      true).Kept tailroom := by
  obtain ⟨fifo, refines⟩ := kept.queued
  have room : state.view.ring.head ≠ state.view.ring.tail := space
  have pushed : state.view.pushCommit = some ({ state.view with
      ring := state.view.ring.commitTail ((state.ring.tail + 1) &&& state.ring.capacity)
      committed := state.session.committed ++ [state.filling] }, .enqueued state.filling) := by
    rw [Session.pushCommit, Ringbuf.pushCommit, if_neg room]
    rfl
  obtain ⟨next, -, after⟩ := refines.pushCommit pushed
  refine { kept with
    queued := ⟨next, after⟩, dropped := ?_, patient := fun blocks => ?_, shown := ?_, stamps := ?_ }
  · change state.ring.dropcnt = UInt64.ofNat (List.countP _ (state.history ++ [_]))
    rw [kept.dropped, List.countP_append]
    rfl
  · exact List.forall_mem_append.mpr ⟨kept.patient blocks, List.forall_mem_singleton.mpr rfl⟩
  · change List.Forall₂ _ (published (state.history ++ [_])) (state.session.committed ++ [_])
    rw [published_concat, if_pos rfl]
    exact List.rel_append kept.shown (.cons (kept.fixed ▸ filled.2.2) .nil)
  · change ((state.session.committed ++ [state.filling]).map Record.timestamp).Sublist _
    rw [List.map_append]
    exact filled.2.1

theorem Kept.drop (kept : state.Kept tailroom) (call : PushCall)
    (impatient : state.ring.blocking = false) :
    ((state.setRing { state.ring with dropcnt := state.ring.dropcnt + 1 }).finish thread call
      false).Kept tailroom := by
  obtain ⟨fifo, refines⟩ := kept.queued
  refine { kept with
    queued := ⟨fifo, counters_refines refines state.ring.seqnum (state.ring.dropcnt + 1)⟩
    dropped := ?_
    patient := fun blocks => absurd (impatient.symm.trans blocks) Bool.false_ne_true
    shown := ?_ }
  · change state.ring.dropcnt + 1 = UInt64.ofNat (List.countP _ (state.history ++ [_]))
    rw [kept.dropped, List.countP_append, UInt64.ofNat_add]
    rfl
  · change List.Forall₂ _ (published (state.history ++ [_])) state.session.committed
    rw [published_concat]
    exact (List.append_nil _).symm ▸ kept.shown

end Access

/-! ## Steps -/

/-- What the reader leaves alone. -/
structure Unread (before after : Session Record) : Prop where
  ring : ∃ head, after.ring = before.ring.commitHead head
  committed : after.committed = before.committed
  delivered : ∃ more, after.delivered = before.delivered ++ more

/-- A reader moves the head and hands records out, wherever its ring waits for
room. -/
theorem readerStep_unread {session after : Session Record} {step : SessionStep Record}
    {event : FifoEvent Record} (reads : readerStep step = true)
    (stepped : session.step Session.rewindsToOpen step = some (after, event)) :
    Unread session after ∧
      { session with ring := { session.ring with blocking := false } }.step Session.rewindsToOpen
          step =
        some ({ after with ring := { after.ring with blocking := false } }, event) := by
  obtain ⟨ring, popping, iterator, returned, everReturned, posting, committed, delivered⟩ := session
  cases step with
  | pushBegin | write | pushCommit | beginUnlocked | finishUnlocked => cases reads
  | popBegin =>
      simp only [Session.step, Ringbuf.popBegin] at stepped ⊢
      by_cases empty : (ring.head + 1) &&& ring.capacity = ring.tail
      · simp only [empty, if_true, Option.some.injEq, Prod.mk.injEq] at stepped ⊢
        obtain ⟨rfl, rfl⟩ := stepped
        exact ⟨⟨⟨ring.head, rfl⟩, rfl, ⟨[], (List.append_nil _).symm⟩⟩, rfl, rfl⟩
      · simp only [empty, if_false, Option.some.injEq, Prod.mk.injEq] at stepped ⊢
        obtain ⟨rfl, rfl⟩ := stepped
        exact ⟨⟨⟨ring.head, rfl⟩, rfl, ⟨[], (List.append_nil _).symm⟩⟩, rfl, rfl⟩
  | popCommit =>
      cases popping with
      | false => cases stepped
      | true =>
          cases stepped
          exact ⟨⟨⟨_, rfl⟩, rfl, ⟨_, rfl⟩⟩, rfl⟩
  | reset =>
      cases stepped
      exact ⟨⟨⟨ring.head, rfl⟩, rfl, ⟨[], (List.append_nil _).symm⟩⟩, rfl⟩
  | next =>
      cases iterator with
      | none => cases stepped
      | some iterator =>
          cases moved : iterator.next ring.capacity with
          | none =>
              simp only [Session.step, moved, Option.bind_eq_bind, Option.bind_some,
                Option.some.injEq, Prod.mk.injEq] at stepped ⊢
              obtain ⟨rfl, rfl⟩ := stepped
              exact ⟨⟨⟨ring.head, rfl⟩, rfl, ⟨[], (List.append_nil _).symm⟩⟩, rfl, rfl⟩
          | some result =>
              simp only [Session.step, moved, Option.bind_eq_bind, Option.bind_some,
                Option.some.injEq, Prod.mk.injEq] at stepped ⊢
              obtain ⟨rfl, rfl⟩ := stepped
              exact ⟨⟨⟨ring.head, rfl⟩, rfl, ⟨[], (List.append_nil _).symm⟩⟩, rfl, rfl⟩
  | rewind slot =>
      cases iterator with
      | none => cases stepped
      | some iterator =>
          simp only [Session.step, Option.bind_eq_bind, Option.bind_some,
            Option.ite_none_right_eq_some, Option.some.injEq, Prod.mk.injEq] at stepped ⊢
          obtain ⟨allowed, rfl, rfl⟩ := stepped
          exact ⟨⟨⟨ring.head, rfl⟩, rfl, ⟨[], (List.append_nil _).symm⟩⟩, allowed, rfl, rfl⟩
  | commit =>
      cases iterator with
      | none => cases stepped
      | some iterator =>
          cases stepped
          exact ⟨⟨⟨_, rfl⟩, rfl, ⟨_, rfl⟩⟩, rfl⟩

section Step

variable {state : Threads} {sole thread : ThreadId} {tailroom : UInt32}

/-- Once there is room, only a writer can use it up. -/
theorem Kept.reader (kept : state.Kept tailroom) {step : SessionStep Record}
    {after : Session Record} {event : FifoEvent Record} (reads : readerStep step = true)
    (stepped : state.session.step Session.rewindsToOpen step = some (after, event)) :
    { state with session := after }.Kept tailroom ∧
      (state.ring.head ≠ state.ring.tail → after.ring.head ≠ after.ring.tail) := by
  obtain ⟨fifo, refines⟩ := kept.queued
  obtain ⟨⟨⟨head, ring⟩, committed, more, delivered⟩, viewed⟩ := readerStep_unread reads stepped
  obtain ⟨next, moved, refines'⟩ := refines.step viewed
  have published : next.enqueued = fifo.enqueued :=
    (refines'.committed.symm.trans committed).trans refines.committed
  have consumed : fifo.consumed ≤ next.consumed := by
    have before := congrArg List.length refines.delivered
    have behind := congrArg List.length refines'.delivered
    have ordered := refines.spans.ordered
    have ordered' := refines'.spans.ordered
    change state.session.delivered.length = _ at before
    change after.delivered.length = _ at behind
    rw [BoundedFifo.delivered, List.length_take, Nat.min_eq_left ordered] at before
    rw [BoundedFifo.delivered, List.length_take, Nat.min_eq_left ordered', delivered,
      List.length_append] at behind
    omega
  refine ⟨{ kept with
    sized := ?_, queued := ⟨next, refines'⟩, dropped := ?_, patient := ?_, shown := ?_
    stamps := ?_ }, ?_⟩
  · change ∀ slot, (after.ring.slots slot).argval.length = _
    rw [ring]
    exact kept.sized
  · change after.ring.dropcnt = _
    rw [ring]
    exact kept.dropped
  · change after.ring.blocking = true → _
    rw [ring]
    exact kept.patient
  · change List.Forall₂ _ _ after.committed
    rw [committed]
    exact kept.shown
  · change (after.committed.map Record.timestamp).Sublist _
    rw [committed]
    exact kept.stamps
  · intro space full
    have room := mt refines.spans.full_iff.mpr space
    have none := refines'.spans.full_iff.mp full
    have bounded := refines.spans.bounded
    have same : after.ring.capacity = state.ring.capacity := by rw [ring]; rfl
    change _ = after.ring.capacity.toNat at none
    rw [published, same] at none
    change ¬ _ = state.ring.capacity.toNat at room
    change _ ≤ state.ring.capacity.toNat at bounded
    omega

theorem goto_self (state : Threads) (thread : ThreadId) (pc : PushPc) :
    (state.goto thread pc).pc thread = pc := by
  simp [goto]

theorem goto_of_ne (state : Threads) {thread other : ThreadId} (different : other ≠ thread)
    (pc : PushPc) : (state.goto thread pc).pc other = state.pc other := by
  simp [goto, different]

theorem goto_stage (state : Threads) (thread : ThreadId) (pc place : PushPc) :
    (state.goto thread pc).Stage place = state.Stage place := by
  cases place <;> rfl

/-- The places of the threads, which an access to the ring leaves alone. -/
structure SamePlaces (before after : Threads) : Prop where
  shared : after.shared = before.shared
  mutex : after.mutex = before.mutex
  pc : after.pc = before.pc
  calls : after.calls = before.calls

/-- A step of the thread that is inside, up to its next one. -/
theorem Orderly.moved (orderly : state.Orderly sole tailroom)
    (entered : (state.pc thread).inside = true) {base : Threads} {pc : PushPc}
    (places : SamePlaces state base) (stays : pc.inside = true) (kept : base.Kept tailroom)
    (stage : base.Stage pc)
    (accounted : ∀ other, ended base.history other ++
      (Function.update state.pc thread pc other).pending = state.calls other) :
    (base.goto thread pc).Orderly sole tailroom := by
  have own := base.goto_self thread pc
  have others {other : ThreadId} (different : other ≠ thread) :
      (base.goto thread pc).pc other = state.pc other :=
    (base.goto_of_ne different pc).trans (congrFun places.pc other)
  have sides (other : ThreadId) :
      ((base.goto thread pc).pc other).inside = (state.pc other).inside := by
    by_cases same : other = thread
    · subst same
      rw [own, stays, entered]
    · rw [others same]
  refine {
    turns := ?_, lonely := ?_, kept := { kept with }, stage := ?_, idle := ?_, accounted := ?_ }
  · change Turns base.shared sole base.mutex _
    rw [places.shared, places.mutex, funext sides]
    exact orderly.turns
  · intro unshared other different
    have single := orderly.lonely (places.shared.symm.trans unshared)
    have elsewhere : other ≠ thread := by
      rintro rfl
      rw [single other different] at entered
      cases entered
    rw [others elsewhere]
    exact single other different
  · intro other inside
    rw [sides] at inside
    have same := orderly.turns.alone inside entered
    subst same
    rw [own, goto_stage]
    exact stage
  · intro nobody
    have out := nobody thread
    rw [sides, entered] at out
    cases out
  · intro other
    change ended base.history other ++ (Function.update base.pc thread pc other).pending =
      base.calls other
    rw [places.pc, places.calls]
    exact accounted other

theorem Orderly.moves (orderly : state.Orderly sole tailroom) {base : Threads}
    {old new : PushPc} (place : state.pc thread = old) (entered : old.inside = true)
    (stays : new.inside = true) (pending : new.pending = old.pending)
    (places : SamePlaces state base) (history : base.history = state.history)
    (kept : base.Kept tailroom) (stage : base.Stage new) :
    (base.goto thread new).Orderly sole tailroom := by
  refine orderly.moved (place ▸ entered) places stays kept stage fun other => ?_
  rw [history, ← orderly.accounted other]
  by_cases same : other = thread
  · subst same
    rw [Function.update_self, pending, place]
  · rw [Function.update_of_ne same]

theorem Orderly.finishes (orderly : state.Orderly sole tailroom) {base : Threads} {old : PushPc}
    {call : PushCall} {published : Bool} (place : state.pc thread = old)
    (entered : old.inside = true) (pending : old.pending = [call]) (places : SamePlaces state base)
    (history : base.history = state.history)
    (kept : (base.finish thread call published).Kept tailroom) (taken : base.Taken 1) :
    (base.finish thread call published).Orderly sole tailroom := by
  refine orderly.moved (place ▸ entered) ⟨places.shared, places.mutex, places.pc, places.calls⟩ rfl
    { kept with } ?_ fun other => ?_
  · change base.ring.seqnum = UInt64.ofNat ((base.history ++ [_]).length + 0)
    rw [List.length_append]
    exact taken
  · change ended (base.history ++ [_]) other ++ _ = _
    rw [ended_concat, history, ← orderly.accounted other]
    by_cases same : other = thread
    · subst same
      rw [Function.update_self, if_pos rfl, place, pending]
      exact List.append_nil _
    · rw [Function.update_of_ne same, if_neg (Ne.symm same), List.append_nil]

/-- The number that is stored in a record. -/
theorem seqnum_field (number : Nat) :
    BitVec.ofNat 52 (UInt64.ofNat number).toNat = BitVec.ofNat 52 number := by
  apply BitVec.eq_of_toNat_eq
  rw [UInt64.toNat_ofNat', BitVec.toNat_ofNat, BitVec.toNat_ofNat]
  exact Nat.mod_mod_of_dvd number (by decide)

theorem Stamped.store (stamped : state.Stamped) {record : Record}
    (same : record.timestamp = state.filling.timestamp) :
    (state.store state.ring.tail record).Stamped := by
  rw [Stamped, store_filling, same]
  exact stamped

/-- The encoders fill the arguments in and leave the header alone. -/
theorem encodeArgs_shows (kept : state.Kept tailroom) (call : PushCall) :
    ∃ record, state.filling.encodeArgs state.recTailroom call.args call.scratch = some record ∧
      record.argval.length = tailroom.toNat ∧ record.timestamp = state.filling.timestamp ∧
      ∀ number, state.filling.seqnum = BitVec.ofNat 52 number → state.filling.area = call.area →
        state.filling.sect = BitVec.ofNat 12 call.sect.toNat →
        call.Shows tailroom number record := by
  rw [kept.fixed]
  obtain ⟨record, encoded, header, length, types, stored⟩ := Record.encodeArgs_spec call.scratch
    call.few call.bounded (kept.sized state.ring.tail) kept.room
  have few := call.few
  have slots := kept.room
  have used := Arg.slotsUsed_le call.args
  have holds := stored.holds length
    (by simp only [Record.nargs, Record.argvalSize] at few slots; omega) types
  refine ⟨record, encoded, length, by rw [header]; rfl, fun number seqnum area sect => ?_⟩
  exact {
    seqnum := (congrArg Record.seqnum header).trans seqnum
    area := (congrArg Record.area header).trans area
    sect := (congrArg Record.sect header).trans sect
    holds }

/-- A step over the lock, while nobody else is inside. -/
theorem Orderly.crosses (orderly : state.Orderly sole tailroom) {mutex : Option ThreadId}
    {pc : PushPc} (turns : Turns state.shared sole mutex
      (Function.update (fun thread => (state.pc thread).inside) thread pc.inside))
    (only : state.shared = false → thread = sole)
    (empty : ∀ other, other ≠ thread → (state.pc other).inside = false)
    (pending : pc.pending = (state.pc thread).pending) (taken : state.Taken 0)
    (stage : state.Stage pc) :
    ({ state with mutex }.goto thread pc).Orderly sole tailroom := by
  have sides (other : ThreadId) : ((state.goto thread pc).pc other).inside =
      Function.update (fun thread => (state.pc thread).inside) thread pc.inside other := by
    by_cases same : other = thread
    · subst same
      rw [goto_self, Function.update_self]
    · rw [goto_of_ne state same, Function.update_of_ne same]
  refine {
    turns := ?_, lonely := ?_, kept := { orderly.kept with }, stage := ?_, idle := ?_
    accounted := ?_ }
  · change Turns state.shared sole mutex fun other => ((state.goto thread pc).pc other).inside
    rwa [funext sides]
  · intro unshared other different
    exact (goto_of_ne state (only unshared ▸ different) pc).trans
      (orderly.lonely unshared other different)
  · intro other inside
    have same : other = thread := by
      by_contra different
      have out := (sides other).symm.trans inside
      rw [Function.update_of_ne different, empty other different] at out
      cases out
    subst same
    rw [goto_stage, goto_self]
    cases pc <;> exact stage
  · exact fun _ => taken
  · intro other
    change ended state.history other ++ ((state.goto thread pc).pc other).pending =
      state.calls other
    rw [← orderly.accounted other]
    by_cases same : other = thread
    · subst same
      rw [goto_self, pending]
    · rw [goto_of_ne state same]

theorem Orderly.enters (orderly : state.Orderly sole tailroom) {call : PushCall}
    (place : state.pc thread = .lock call)
    (free : if state.shared then state.mutex = none else thread = sole) :
    ({ state with mutex := if state.shared then some thread else state.mutex }.goto thread
      (.pushBegin call)).Orderly sole tailroom := by
  have out : (state.pc thread).inside = false := by rw [place]; rfl
  have only (unshared : state.shared = false) : thread = sole := by simpa [unshared] using free
  have nobody := orderly.turns.nobody (by
    cases shared : state.shared with
    | true => simpa [shared] using free
    | false => simpa using only shared ▸ out)
  have taken := orderly.idle nobody
  exact orderly.crosses (orderly.turns.enter free) only (fun other _ => nobody other)
    (by rw [place]; rfl) taken taken

theorem Orderly.leaves (orderly : state.Orderly sole tailroom)
    (place : state.pc thread = .unlock) :
    ({ state with mutex := if state.shared then none else state.mutex }.goto thread
      .outside).Orderly sole tailroom := by
  have entered : (state.pc thread).inside = true := by rw [place]; rfl
  have taken : state.Taken 0 := by
    have stage := orderly.stage thread entered
    rwa [place] at stage
  have only (unshared : state.shared = false) : thread = sole := by
    by_contra different
    cases place.symm.trans (orderly.lonely unshared thread different)
  exact orderly.crosses (orderly.turns.leave entered) only
    (fun other different => orderly.turns.outside_of_ne entered different) (by rw [place]; rfl)
    taken taken

/-- An access of any thread, inside or in front of the lock. -/
theorem Orderly.advance (orderly : state.Orderly sole tailroom) (thread : ThreadId) :
    (state.advance thread).Orderly sole tailroom := by
  have same : SamePlaces state state := ⟨rfl, rfl, rfl, rfl⟩
  have stage := orderly.stage thread
  have kept := orderly.kept
  cases place : state.pc thread with
  | outside =>
      rw [Threads.advance, place]
      exact orderly
  | lock call =>
      rw [Threads.advance, place]
      have enters := @Orderly.enters _ _ thread _ orderly call place
      by_cases shared : state.shared = true
      · rw [if_pos shared, if_pos shared] at enters
        by_cases free : state.mutex = none
        · simpa only [if_pos shared, if_pos free] using enters free
        · simpa only [if_pos shared, if_neg free] using orderly
      · have unshared := Bool.eq_false_of_not_eq_true shared
        have only : thread = sole := by
          by_contra different
          cases place.symm.trans (orderly.lonely unshared thread different)
        rw [if_neg shared, if_neg shared] at enters
        simpa only [if_neg shared] using enters only
  | unlock =>
      rw [Threads.advance, place]
      exact orderly.leaves place
  | pushBegin call =>
      rw [place] at stage
      rw [Threads.advance, place]
      exact orderly.moves place rfl rfl rfl same rfl kept
        ⟨rfl, stage rfl⟩
  | loadSeqnum call slot =>
      rw [place] at stage
      obtain ⟨rfl, taken⟩ := stage rfl
      rw [Threads.advance, place]
      exact orderly.moves place rfl rfl rfl same rfl kept
        ⟨rfl, taken⟩
  | storeSeqnum call slot seqnum =>
      rw [place] at stage
      obtain ⟨rfl, rfl⟩ := stage rfl
      rw [Threads.advance, place]
      refine orderly.moves place rfl rfl rfl ⟨rfl, rfl, rfl, rfl⟩ rfl
        (kept.seqnum _) ⟨rfl, ?_, rfl⟩
      exact (UInt64.ofNat_add _ 1).symm
  | setSeqnum call slot seqnum =>
      rw [place] at stage
      obtain ⟨rfl, taken, rfl⟩ := stage rfl
      rw [Threads.advance, place]
      refine orderly.moves place rfl rfl rfl ⟨rfl, rfl, rfl, rfl⟩ rfl
        (kept.store (kept.sized _)) ⟨rfl, taken, ?_⟩
      rw [store_filling]
      exact seqnum_field _
  | setTimestamp call slot =>
      rw [place] at stage
      obtain ⟨rfl, taken, seqnum⟩ := stage rfl
      have stored : (state.store state.ring.tail
          { state.filling with timestamp := state.clock }).Kept tailroom :=
        kept.store (kept.sized _)
      rw [Threads.advance, place]
      refine orderly.moves place rfl rfl rfl ⟨rfl, rfl, rfl, rfl⟩ rfl
        (stored.read state.clock) ⟨rfl, taken, ?_, ?_⟩
      · exact (congrArg Record.seqnum (store_filling _)).trans seqnum
      · have read : (state.store state.ring.tail
            { state.filling with timestamp := state.clock }).filling.timestamp = state.clock :=
          congrArg Record.timestamp (store_filling _)
        exact kept.stamps.append (List.singleton_sublist.mpr (List.mem_singleton.mpr read))
  | setArea call slot =>
      rw [place] at stage
      obtain ⟨rfl, taken, seqnum, stamped⟩ := stage rfl
      rw [Threads.advance, place]
      refine orderly.moves place rfl rfl rfl ⟨rfl, rfl, rfl, rfl⟩ rfl
        (kept.store (kept.sized _)) ⟨rfl, taken, ?_, stamped.store rfl, ?_⟩
      · exact (congrArg Record.seqnum (store_filling _)).trans seqnum
      · rw [store_filling]
  | setSection call slot =>
      rw [place] at stage
      obtain ⟨rfl, taken, seqnum, stamped, area⟩ := stage rfl
      rw [Threads.advance, place]
      refine orderly.moves place rfl rfl rfl ⟨rfl, rfl, rfl, rfl⟩ rfl
        (kept.store (kept.sized _)) ⟨rfl, taken, ?_, stamped.store rfl, ?_, ?_⟩
      · exact (congrArg Record.seqnum (store_filling _)).trans seqnum
      · exact (congrArg Record.area (store_filling _)).trans area
      · rw [store_filling]
  | setArgs call slot =>
      rw [place] at stage
      obtain ⟨rfl, taken, seqnum, stamped, area, sect⟩ := stage rfl
      obtain ⟨record, encoded, sized, timestamp, shows⟩ := encodeArgs_shows kept call
      rw [filling] at encoded
      simp only [Threads.advance, place, encoded]
      refine orderly.moves place rfl rfl rfl ⟨rfl, rfl, rfl, rfl⟩ rfl
        (kept.store sized) ⟨taken, stamped.store timestamp, ?_⟩
      rw [store_filling]
      exact kept.fixed.symm ▸ shows _ seqnum area sect
  | loadTail call =>
      rw [place] at stage
      rw [Threads.advance, place]
      exact orderly.moves place rfl rfl rfl same rfl kept
        ⟨rfl, stage rfl⟩
  | testHead call tail =>
      rw [place] at stage
      obtain ⟨rfl, filled⟩ := stage rfl
      simp only [Threads.advance, place]
      by_cases full : state.ring.head = state.ring.tail
      · rw [if_pos full]
        cases blocking : state.ring.blocking with
        | true => exact orderly
        | false =>
            exact orderly.moves place rfl rfl rfl same rfl kept
              ⟨filled.1, blocking⟩
      · rw [if_neg full]
        exact orderly.moves place rfl rfl rfl same rfl kept
          ⟨rfl, full, filled⟩
  | commitTail call tail =>
      rw [place] at stage
      obtain ⟨rfl, space, filled⟩ := stage rfl
      rw [Threads.advance, place]
      exact orderly.finishes place rfl rfl ⟨rfl, rfl, rfl, rfl⟩ rfl
        (kept.commit filled space) filled.1
  | loadDropcnt call =>
      rw [place] at stage
      rw [Threads.advance, place]
      exact orderly.moves place rfl rfl rfl same rfl kept
        ⟨(stage rfl).1, (stage rfl).2, rfl⟩
  | storeDropcnt call dropcnt =>
      rw [place] at stage
      obtain ⟨taken, impatient, rfl⟩ := stage rfl
      rw [Threads.advance, place]
      exact orderly.finishes place rfl rfl ⟨rfl, rfl, rfl, rfl⟩ rfl
        (kept.drop call impatient) taken

end Step

section Result

variable {state : Threads} {sole : ThreadId} {tailroom : UInt32}

theorem Orderly.begins (orderly : state.Orderly sole tailroom) {thread : ThreadId}
    (call : PushCall) (own : state.shared = false → thread = sole) :
    (state.begin thread call).Orderly sole tailroom := by
  rw [Threads.begin]
  cases place : state.pc thread with
  | outside =>
      let called : Threads :=
        { state with calls := Function.update state.calls thread (state.calls thread ++ [call]) }
      have sides (other : ThreadId) :
          ((called.goto thread (.lock call)).pc other).inside = (state.pc other).inside := by
        by_cases same : other = thread
        · subst same
          rw [goto_self, place]
          rfl
        · rw [goto_of_ne called same]
      refine {
    turns := ?_, lonely := ?_, kept := { orderly.kept with }, stage := ?_, idle := ?_
    accounted := ?_ }
      · change Turns state.shared sole state.mutex _
        rw [funext sides]
        exact orderly.turns
      · intro unshared other different
        exact (goto_of_ne called (own unshared ▸ different) _).trans
          (orderly.lonely unshared other different)
      · intro other inside
        have different : other ≠ thread := by
          rintro rfl
          rw [goto_self] at inside
          cases inside
        rw [sides] at inside
        rw [goto_of_ne called different, goto_stage]
        have stage := orderly.stage other inside
        cases at' : state.pc other <;> rw [at'] at stage <;> exact stage
      · intro nobody
        exact orderly.idle fun other => (sides other).symm.trans (nobody other)
      · intro other
        change ended state.history other ++ ((called.goto thread (.lock call)).pc other).pending =
          Function.update state.calls thread (state.calls thread ++ [call]) other
        by_cases same : other = thread
        · subst same
          have none := orderly.accounted other
          rw [place] at none
          rw [goto_self, Function.update_self, ← none]
          exact congrArg (· ++ [call]) (List.append_nil _).symm
        · rw [goto_of_ne called same, Function.update_of_ne same]
          exact orderly.accounted other
  | _ => exact orderly

/-- The reader spoils nothing that the thread inside relies on. -/
theorem stage_reads {after : Session Record} {head : UInt32} {place : PushPc}
    (ring : after.ring = state.ring.commitHead head)
    (committed : after.committed = state.session.committed)
    (space : state.ring.head ≠ state.ring.tail → after.ring.head ≠ after.ring.tail)
    (stage : state.Stage place) : { state with session := after }.Stage place := by
  obtain ⟨_, _, _, _, _, _, _, _⟩ := after
  simp only at ring committed
  subst ring committed
  cases place with
  | commitTail call tail => exact ⟨stage.1, space stage.2.1, stage.2.2⟩
  | _ => exact stage

theorem Orderly.reads (orderly : state.Orderly sole tailroom) (step : SessionStep Record) :
    (state.read step).Orderly sole tailroom := by
  rw [Threads.read]
  cases reader : readerStep step with
  | false => exact orderly
  | true =>
      rw [if_pos rfl]
      cases stepped : state.session.step Session.rewindsToOpen step with
      | none => exact orderly
      | some result =>
          obtain ⟨after, event⟩ := result
          obtain ⟨kept, space⟩ := orderly.kept.reader reader stepped
          obtain ⟨⟨⟨head, ring⟩, committed, -⟩, -⟩ := readerStep_unread reader stepped
          have seqnum : after.ring.seqnum = state.ring.seqnum := by rw [ring]; rfl
          exact { orderly with
            kept
            stage := fun thread inside =>
              stage_reads ring committed space (orderly.stage thread inside)
            idle := fun nobody => seqnum.trans (orderly.idle nobody) }

theorem Orderly.ticks (orderly : state.Orderly sole tailroom) (clock : UInt64) :
    { state with clock }.Orderly sole tailroom :=
  { orderly with
    kept := { orderly.kept with }
    stage := fun thread inside => by
      have stage := orderly.stage thread inside
      change { state with clock }.Stage (state.pc thread)
      cases place : state.pc thread <;> rw [place] at stage <;> exact stage }

theorem advance_shared (state : Threads) (thread : ThreadId) :
    (state.advance thread).shared = state.shared := by
  cases place : state.pc thread with
  | lock call =>
      simp only [Threads.advance, place]
      split
      · split <;> rfl
      · rfl
  | setArgs call slot =>
      simp only [Threads.advance, place]
      split <;> rfl
  | testHead call tail =>
      simp only [Threads.advance, place]
      split
      · split <;> rfl
      · rfl
  | _ => simp only [Threads.advance, place] <;> rfl

theorem act_shared (state : Threads) (action : ThreadAction) :
    (state.act action).shared = state.shared := by
  cases action with
  | call thread call =>
      rw [act, Threads.begin]
      split <;> rfl
  | step thread => exact advance_shared state thread
  | tick clock => rfl
  | read step =>
      rw [act, Threads.read]
      split
      · split <;> rfl
      · rfl

/-- The actions that a ring allows: one without a lock has one writer. -/
def Allowed (shared : Bool) (sole : ThreadId) (actions : List ThreadAction) : Prop :=
  shared = true ∨ ∀ thread call, .call thread call ∈ actions → thread = sole

theorem Orderly.after (orderly : state.Orderly sole tailroom) (actions : List ThreadAction)
    (allowed : Allowed state.shared sole actions) :
    (state.after actions).Orderly sole tailroom := by
  induction actions generalizing state with
  | nil => exact orderly
  | cons action rest ih =>
      have next : (state.act action).Orderly sole tailroom := by
        cases action with
        | call thread call =>
            refine orderly.begins call fun unshared => ?_
            rcases allowed with shared | own
            · cases unshared.symm.trans shared
            · exact own thread call List.mem_cons_self
        | step thread => exact orderly.advance thread
        | tick clock => exact orderly.ticks clock
        | read step => exact orderly.reads step
      refine ih next ?_
      rw [act_shared]
      exact allowed.imp_right fun own thread call member =>
        own thread call (List.mem_cons_of_mem action member)

end Result

section Result

variable {shared : Bool} {sole : ThreadId}

theorem construct_isMask {opts : Options} {ring : RecordRing}
    (made : RecordRing.construct opts = some ring) : ∃ mask, IsMask mask ∧
      ∃ blocking slots, ring.ring = .fresh mask blocking slots := by
  simp only [RecordRing.construct, Option.bind_eq_bind] at made
  obtain ⟨slots, rounded, rest⟩ := Option.bind_eq_some_iff.mp made
  obtain ⟨recShift, -, result⟩ := Option.bind_eq_some_iff.mp rest
  obtain ⟨log, found, rfl⟩ := Option.map_eq_some_iff.mp rounded
  obtain ⟨inside, -, -⟩ := roundupLog2_spec found
  have power := shiftLeft_one_toNat log inside
  have positive : 0 < 2 ^ log := Nat.two_pow_pos log
  refine ⟨1 <<< UInt32.ofNat log - 1, ⟨log, ?_⟩, opts.blocking,
    fun _ => zeroRecord (2 ^ recShift), ?_⟩
  · rw [UInt32.toNat_sub_of_le _ _ (by rw [UInt32.le_iff_toNat_le, power]; exact positive), power]
    exact Nat.sub_add_cancel positive
  · simp only [Option.pure_def, Option.some.injEq] at result
    rw [← result]

theorem create_orderly {opts : Options} {ring : RecordRing}
    (made : RecordRing.construct opts = some ring) (small : opts.recordTailroom.toNat ≤ 2 ^ 30)
    (clock : UInt64) : (create ring shared clock).Orderly sole ring.recTailroom := by
  obtain ⟨mask, isMask, blocking, slots, fresh⟩ := construct_isMask made
  have sized : ring.Sized := by
    rcases RecordRing.construct_sized made with sized | ⟨wrapped, -⟩
    · exact sized
    · omega
  have seqnum : ring.ring.seqnum = 0 := by rw [fresh]; rfl
  have dropcnt : ring.ring.dropcnt = 0 := by rw [fresh]; rfl
  have refines : (create ring shared clock).view.Refines (.initial mask.toNat) := by
    have view : (create ring shared clock).view = Session.fresh mask slots := by
      rw [view, create, Threads.ring, fresh]
      rfl
    exact view ▸ Session.fresh_refines isMask slots
  exact {
    turns := by
      cases shared with
      | true =>
          intro thread
          simp [create, PushPc.inside]
      | false =>
          intro thread inside
          cases inside
    lonely := fun _ _ _ => rfl
    kept := {
      room := sized.room
      fixed := rfl
      sized := sized.slots
      queued := ⟨_, refines⟩
      dropped := dropcnt
      patient := fun _ _ member => absurd member List.not_mem_nil
      shown := .nil
      stamps := .slnil }
    stage := fun _ inside => by cases inside
    idle := fun _ => seqnum
    accounted := fun _ => rfl }

end Result

/-- Whatever the order in which the threads and the reader take their steps,
the calls of `push` on a ring take effect one after another: each published
record is that of one call, under the number of that call and with a timestamp
read after those in front of it; each call of a thread, in its order, is
published, counted as dropped or still under way; and the reader gets the
published records in order. -/
theorem pushes_take_turns {opts : Options} {ring : RecordRing}
    (made : RecordRing.construct opts = some ring) (small : opts.recordTailroom.toNat ≤ 2 ^ 30)
    (shared : Bool) (sole : ThreadId) (clock : UInt64) {actions : List ThreadAction}
    (allowed : Allowed shared sole actions) {final : Threads}
    (ran : (create ring shared clock).after actions = final) :
    (∀ thread other, (final.pc thread).inside = true → (final.pc other).inside = true →
      thread = other) ∧
    List.Forall₂ (fun posted record =>
      posted.1.call.Shows ring.recTailroom posted.2 record) (published final.history)
      final.session.committed ∧
    (final.session.committed.map Record.timestamp).Sublist final.readings ∧
    (∀ thread, ended final.history thread ++ (final.pc thread).pending = final.calls thread) ∧
    final.ring.dropcnt =
      UInt64.ofNat (final.history.countP fun posted => !posted.published) ∧
    (final.ring.blocking = true → ∀ posted ∈ final.history, posted.published = true) ∧
    final.session.delivered ++ final.ring.queue = final.session.committed := by
  have orderly : final.Orderly sole ring.recTailroom :=
    ran ▸ (create_orderly made small clock).after actions allowed
  obtain ⟨fifo, refines⟩ := orderly.kept.queued
  refine ⟨fun thread other => orderly.turns.alone, orderly.kept.shown, orderly.kept.stamps,
    orderly.accounted, orderly.kept.dropped, orderly.kept.patient, ?_⟩
  have queue : final.ring.queue = fifo.queue := refines.stores.queue_eq refines.spans
  have delivered : final.session.delivered = fifo.delivered := refines.delivered
  have committed : final.session.committed = fifo.enqueued := refines.committed
  rw [queue, delivered, committed]
  exact fifo.delivered_append_queue

/-- A call without an area and with these arguments. -/
def plainCall (args : List Arg) (few : args.length ≤ Record.nargs)
    (bounded : ∀ arg ∈ args, arg.Bounded) : PushCall :=
  { area := none, sect := 1, args, scratch := ⟨0, fun _ => 0, fun _ => .none, fun _ => 0⟩
    few, bounded }

/-- The second thread runs into the lock of the first one. -/
def twoThreads : List ThreadAction :=
  [.call 0 (plainCall [.value .int32 5] (by decide) (by simp [Arg.Bounded, Arg.data])),
    .call 1 (plainCall [.cstr (ascii "x")] (by decide) (by simp [Arg.Bounded, Arg.data, ascii])),
    .step 0] ++
  List.replicate 12 (.step 0) ++ [.step 1, .read .popBegin, .tick 9, .step 0] ++
  List.replicate 13 (.step 1) ++ [.read .popCommit]

theorem pushes_take_turns_two_threads :
    ∃ ring final, RecordRing.construct ⟨4, false, 128⟩ = some ring ∧
      (create ring true 5).after twoThreads = final ∧ final.session.committed.length = 2 ∧
      List.Forall₂ (fun posted record => posted.1.call.Shows ring.recTailroom posted.2 record)
        (published final.history) final.session.committed ∧
      final.session.delivered ++ final.ring.queue = final.session.committed := by
  obtain ⟨-, shown, -, -, -, -, order⟩ := @pushes_take_turns ⟨4, false, 128⟩ _ rfl (by decide) true
    0 5 twoThreads (.inl rfl) _ rfl
  exact ⟨_, _, rfl, rfl, by decide +kernel, shown, order⟩

end Threads

end Hogl.Post
