import Hogl.Ring.Session

namespace Hogl.Ring

open Hogl.Data

/-! # The ring buffer refines a bounded queue -/

namespace Session

variable {α : Type} {session : Session α} {fifo : BoundedFifo α}

/-- The session and the queue agree on what was committed and consumed, and
everything the reader holds lies inside the snapshot its cursor walks. -/
structure Refines (session : Session α) (fifo : BoundedFifo α) : Prop where
  nonblocking : session.ring.blocking = false
  bound : fifo.bound = session.ring.capacity.toNat
  spans : session.ring.Spans fifo.consumed fifo.enqueued.length
  stores : session.ring.Stores fifo.enqueued fifo.consumed
  popping : session.popping = true → fifo.consumed < fifo.enqueued.length
  stands : ∀ iterator, session.iterator = some iterator →
    iterator.Stands session.ring.capacity fifo.passed fifo.limit
  snapshot : session.iterator.isSome → fifo.consumed ≤ fifo.passed ∧
    fifo.limit ≤ fifo.enqueued.length
  returned : ∀ slot ∈ session.returned, session.iterator.isSome ∧ ∃ position,
    fifo.consumed ≤ position ∧ position < fifo.limit ∧
    slot = slotOf session.ring.capacity position
  committed : session.committed = fifo.enqueued
  delivered : session.delivered = fifo.delivered

theorem fresh_refines {mask : UInt32} (isMask : IsMask mask) (slots : UInt32 → α) :
    (fresh mask slots).Refines (.initial mask.toNat) where
  nonblocking := rfl
  bound := rfl
  spans := Ringbuf.fresh_spans isMask false slots
  stores := by intro position value _ read; simp [BoundedFifo.initial] at read
  popping := by intro opened; cases opened
  stands := by intro iterator found; cases found
  snapshot := by intro found; cases found
  returned := by intro slot member; cases member
  committed := rfl
  delivered := rfl

namespace Refines

theorem store_tail (refines : session.Refines fifo) (value : α) :
    { session with ring := session.ring.store session.ring.tail value }.Refines fifo :=
  { refines with
    spans := ⟨refines.spans.isMask, refines.spans.ordered, refines.spans.bounded,
      refines.spans.tail, refines.spans.head⟩
    stores := refines.stores.store_tail refines.spans (Nat.le_refl _) value }

/-- A commit either appends the filled slot or, when all but the reserved
slot are queued, changes nothing but the drop count. -/
theorem pushCommit (refines : session.Refines fifo) {after : Session α} {event : FifoEvent α}
    (pushed : session.pushCommit = some (after, event)) :
    ∃ next, fifo.Step event next ∧ after.Refines next := by
  have length := fifo.queue_length
  have bounded := refines.spans.bounded
  by_cases full : session.ring.head = session.ring.tail
  · have filled := refines.spans.full_iff.mp full
    simp only [Session.pushCommit, Ringbuf.pushCommit, full, refines.nonblocking, if_true,
      Bool.false_eq_true, if_false, Option.some.injEq, Prod.mk.injEq] at pushed
    obtain ⟨rfl, rfl⟩ := pushed
    refine ⟨fifo, .dropped (by rw [length, filled, refines.bound]), ?_⟩
    exact { refines with
      spans := ⟨refines.spans.isMask, refines.spans.ordered, refines.spans.bounded,
        refines.spans.tail, refines.spans.head⟩ }
  · have space : fifo.enqueued.length - fifo.consumed < session.ring.capacity.toNat :=
      lt_of_le_of_ne bounded (fun same => full (refines.spans.full_iff.mpr same))
    simp only [Session.pushCommit, Ringbuf.pushCommit, full, if_false, Option.some.injEq,
      Prod.mk.injEq] at pushed
    obtain ⟨rfl, rfl⟩ := pushed
    refine ⟨_, .enqueued _ (by rw [length, refines.bound]; exact space), ?_⟩
    have ordered := refines.spans.ordered
    exact { refines with
      spans := by simpa using refines.spans.commitTail space
      stores := refines.stores.commit refines.spans _
      popping := fun opened => by
        have pending := refines.popping opened
        simp only [List.length_append, List.length_cons, List.length_nil]
        omega
      snapshot := fun found => by
        obtain ⟨lower, upper⟩ := refines.snapshot found
        refine ⟨lower, Nat.le_trans upper ?_⟩
        simp
      committed := by rw [refines.committed]
      delivered := by
        rw [refines.delivered]
        simp only [BoundedFifo.delivered]
        rw [List.take_append_of_le_length ordered] }

/-- Moving the head to the slot before `position` delivers exactly the
records between the old head and that position. -/
theorem moveHead (refines : session.Refines fifo) {position : Nat}
    (lower : fifo.consumed ≤ position) (upper : position ≤ fifo.enqueued.length) :
    let moved := session.moveHead
      (slotOf session.ring.capacity (position + session.ring.capacity.toNat))
    moved.ring.Spans position fifo.enqueued.length ∧
      moved.ring.Stores fifo.enqueued position ∧
      moved.delivered = fifo.enqueued.take position := by
  intro moved
  have bounded := refines.spans.bounded
  have isMask := refines.spans.isMask
  refine ⟨refines.spans.commitHead lower upper, refines.stores.mono lower, ?_⟩
  have count : ((slotOf session.ring.capacity (position + session.ring.capacity.toNat) -
      session.ring.head) &&& session.ring.capacity).toNat = position - fifo.consumed := by
    rw [isMask.sub_and_toNat (slotOf_modEq isMask (position + session.ring.capacity.toNat))
      refines.spans.head_modEq
      (by omega) (by rw [slotCount]; omega)]
    omega
  change session.delivered ++ (session.ring.slotsAhead _).map session.ring.slots = _
  rw [count, refines.stores.map_slotsAhead refines.spans (by omega), refines.delivered,
    BoundedFifo.delivered, ← List.take_add, Nat.add_sub_cancel' lower]

theorem popBegin (refines : session.Refines fifo) {after : Session α} {event : FifoEvent α}
    {mayRewind : Session α → UInt32 → Bool}
    (stepped : session.step mayRewind .popBegin = some (after, event)) :
    ∃ next, fifo.Step event next ∧ after.Refines next := by
  by_cases none_left : fifo.consumed = fifo.enqueued.length
  · have found : session.ring.popBegin = none := by rw [refines.spans.popBegin_eq, if_pos none_left]
    simp only [step, found, Option.some.injEq, Prod.mk.injEq] at stepped
    obtain ⟨rfl, rfl⟩ := stepped
    have front : fifo.queue.head? = none := by
      simp [BoundedFifo.queue, none_left]
    exact ⟨fifo, front ▸ .peeked fifo, refines⟩
  · have pending : fifo.consumed < fifo.enqueued.length :=
      lt_of_le_of_ne refines.spans.ordered none_left
    have found : session.ring.popBegin = some (slotOf session.ring.capacity fifo.consumed) := by
      rw [refines.spans.popBegin_eq, if_neg none_left]
    simp only [step, found, Option.some.injEq, Prod.mk.injEq] at stepped
    obtain ⟨rfl, rfl⟩ := stepped
    have read := List.getElem?_eq_getElem pending
    have front : fifo.queue.head? = some fifo.enqueued[fifo.consumed] := by
      rw [BoundedFifo.queue, List.head?_drop, read]
    rw [refines.stores _ _ (Nat.le_refl _) read, ← front]
    exact ⟨fifo, .peeked fifo, { refines with popping := fun _ => pending }⟩

theorem popCommit (refines : session.Refines fifo) {after : Session α} {event : FifoEvent α}
    {mayRewind : Session α → UInt32 → Bool}
    (stepped : session.step mayRewind .popCommit = some (after, event)) :
    ∃ next, fifo.Step event next ∧ after.Refines next := by
  by_cases opened : session.popping = true
  · have pending := refines.popping opened
    have target : session.ring.popCommit.head =
        slotOf session.ring.capacity (fifo.consumed + 1 + session.ring.capacity.toNat) := by
      rw [slotOf_last refines.spans.isMask]
      exact refines.spans.next_slot
    simp only [step, opened, if_true, target, Option.some.injEq, Prod.mk.injEq] at stepped
    obtain ⟨rfl, rfl⟩ := stepped
    obtain ⟨spans, stores, delivered⟩ := refines.moveHead (Nat.le_succ _) pending
    have nonempty : fifo.queue ≠ [] := by
      intro empty
      have length := fifo.queue_length
      rw [empty, List.length_nil] at length
      omega
    exact ⟨_, .dequeued nonempty, {
      nonblocking := refines.nonblocking
      bound := refines.bound
      spans, stores, delivered
      popping := by intro again; cases again
      stands := by intro iterator found; cases found
      snapshot := by intro found; cases found
      returned := by intro slot member; cases member
      committed := refines.committed }⟩
  · simp [step, opened] at stepped

theorem next (refines : session.Refines fifo) {after : Session α} {event : FifoEvent α}
    {mayRewind : Session α → UInt32 → Bool}
    (stepped : session.step mayRewind .next = some (after, event)) :
    ∃ next, fifo.Step event next ∧ after.Refines next := by
  cases held : session.iterator with
  | none => simp [step, held] at stepped
  | some iterator =>
      have stands := refines.stands iterator held
      have isMask := refines.spans.isMask
      obtain ⟨lower, upper⟩ := refines.snapshot (by rw [held]; rfl)
      by_cases done : fifo.passed = fifo.limit
      · have found : iterator.next session.ring.capacity = none := by
          rw [stands.next_eq isMask, if_pos done]
        simp only [step, held, found, Option.bind_eq_bind, Option.bind_some, Option.some.injEq,
          Prod.mk.injEq] at stepped
        obtain ⟨rfl, rfl⟩ := stepped
        exact ⟨fifo, .exhausted done, refines⟩
      · have more : fifo.passed < fifo.limit := lt_of_le_of_ne stands.ordered done
        have found : iterator.next session.ring.capacity =
            some (slotOf session.ring.capacity fifo.passed,
              { iterator with head := slotOf session.ring.capacity fifo.passed }) := by
          rw [stands.next_eq isMask, if_neg done]
        simp only [step, held, found, Option.bind_eq_bind, Option.bind_some, Option.some.injEq,
          Prod.mk.injEq] at stepped
        obtain ⟨rfl, rfl⟩ := stepped
        have read := List.getElem?_eq_getElem (Nat.lt_of_lt_of_le more upper)
        rw [refines.stores _ _ lower read]
        refine ⟨_, .walked more read, { refines with
          stands := ?_, snapshot := ?_, returned := ?_ }⟩
        · rintro _ ⟨⟩
          exact stands.advance isMask more
        · exact fun _ => ⟨Nat.le_succ_of_le lower, upper⟩
        · intro slot member
          rcases List.mem_append.mp member with old | new
          · exact ⟨rfl, (refines.returned slot old).2⟩
          · exact ⟨rfl, fifo.passed, lower, more, List.mem_singleton.mp new⟩

/-- Rewinding stays inside the snapshot because every record the reader may
name was returned by `next` and has not been consumed since. -/
theorem rewind (refines : session.Refines fifo) {slot : UInt32} {after : Session α}
    {event : FifoEvent α}
    (stepped : session.step rewindsToOpen (.rewind slot) = some (after, event)) :
    ∃ next, fifo.Step event next ∧ after.Refines next := by
  cases held : session.iterator with
  | none => simp [step, held] at stepped
  | some iterator =>
      by_cases allowed : slot ∈ session.returned
      · obtain ⟨_, position, lower, upper, rfl⟩ := refines.returned slot allowed
        have isMask := refines.spans.isMask
        have bounded := refines.spans.bounded
        have stands := refines.stands iterator held
        obtain ⟨_, inside⟩ := refines.snapshot (by rw [held]; rfl)
        have distance : ((slotOf session.ring.capacity position - session.ring.head) &&&
            session.ring.capacity).toNat = position + 1 - fifo.consumed := by
          rw [← slotOf_last isMask, isMask.sub_and_toNat
            (slotOf_modEq isMask (position + 1 + session.ring.capacity.toNat))
            refines.spans.head_modEq
            (by omega) (by rw [slotCount]; omega)]
          omega
        simp only [step, held, rewindsToOpen, List.contains_eq_mem, allowed, decide_true, if_true,
          distance, Option.bind_eq_bind, Option.bind_some, Option.some.injEq,
          Prod.mk.injEq] at stepped
        obtain ⟨rfl, rfl⟩ := stepped
        refine ⟨_, .rewound (by omega) upper, { refines with
          stands := ?_, snapshot := ?_, returned := ?_ }⟩
        · rintro _ ⟨⟩
          exact {
            ordered := upper
            near := by
              change fifo.limit - (position + 1) ≤ session.ring.capacity.toNat
              omega
            head := (slotOf_last isMask position).symm
            tail := stands.tail }
        · exact fun _ => ⟨Nat.le_succ_of_le lower, inside⟩
        · exact fun slot member => ⟨rfl, (refines.returned slot member).2⟩
      · simp [step, held, rewindsToOpen, allowed] at stepped

theorem commit (refines : session.Refines fifo) {after : Session α} {event : FifoEvent α}
    {mayRewind : Session α → UInt32 → Bool}
    (stepped : session.step mayRewind .commit = some (after, event)) :
    ∃ next, fifo.Step event next ∧ after.Refines next := by
  cases held : session.iterator with
  | none => simp [step, held] at stepped
  | some iterator =>
      have stands := refines.stands iterator held
      obtain ⟨lower, upper⟩ := refines.snapshot (by rw [held]; rfl)
      simp only [step, held, PopIterator.commit, Ringbuf.commitHead, stands.head,
        Option.bind_eq_bind, Option.bind_some, Option.some.injEq, Prod.mk.injEq] at stepped
      obtain ⟨rfl, rfl⟩ := stepped
      obtain ⟨spans, stores, delivered⟩ := refines.moveHead lower
        (Nat.le_trans stands.ordered upper)
      exact ⟨_, .closed fifo, {
        nonblocking := refines.nonblocking
        bound := refines.bound
        spans, stores, delivered
        popping := by intro again; cases again
        stands := by
          intro other found
          exact refines.stands other found
        snapshot := fun _ => ⟨Nat.le_refl _, upper⟩
        returned := by intro slot member; cases member
        committed := refines.committed }⟩

/-- Every step of the writer or of the reader is a step of the queue. -/
theorem step (refines : session.Refines fifo) {first : SessionStep α} {after : Session α}
    {event : FifoEvent α} (stepped : session.step rewindsToOpen first = some (after, event)) :
    ∃ next, fifo.Step event next ∧ after.Refines next := by
  cases first with
  | pushBegin =>
      cases stepped
      exact ⟨fifo, .staged fifo, refines⟩
  | write value =>
      cases stepped
      exact ⟨fifo, .staged fifo, refines.store_tail value⟩
  | pushCommit => exact refines.pushCommit stepped
  | beginUnlocked header =>
      by_cases busy : session.posting = true
      · simp [Session.step, busy] at stepped
      · simp only [Session.step, busy, Bool.false_eq_true, if_false, Option.some.injEq,
          Prod.mk.injEq] at stepped
        obtain ⟨rfl, rfl⟩ := stepped
        have filled := refines.store_tail (header session.ring.seqnum)
        exact ⟨fifo, .staged fifo, { filled with
          spans := ⟨filled.spans.isMask, filled.spans.ordered, filled.spans.bounded,
            filled.spans.tail, filled.spans.head⟩ }⟩
  | finishUnlocked =>
      by_cases busy : session.posting = true
      · simp only [Session.step, busy, if_true] at stepped
        exact @Refines.pushCommit _ { session with posting := false } _ { refines with } _ _ stepped
      · simp [Session.step, busy] at stepped
  | popBegin => exact refines.popBegin stepped
  | popCommit => exact refines.popCommit stepped
  | reset =>
      cases stepped
      refine ⟨_, .opened fifo, { refines with
        stands := ?_, snapshot := ?_, returned := ?_ }⟩
      · rintro _ ⟨⟩
        exact PopIterator.Stands.reset refines.spans
      · exact fun _ => ⟨Nat.le_refl _, Nat.le_refl _⟩
      · intro slot member; cases member
  | next => exact refines.next stepped
  | rewind slot => exact refines.rewind stepped
  | commit => exact refines.commit stepped

theorem run (refines : session.Refines fifo) {steps : List (SessionStep α)} {after : Session α}
    {events : List (FifoEvent α)} (ran : session.run rewindsToOpen steps = some (after, events)) :
    ∃ next, fifo.Accepts events next ∧ after.Refines next := by
  induction steps generalizing session fifo events with
  | nil =>
      cases ran
      exact ⟨fifo, .nil fifo, refines⟩
  | cons first rest ih =>
      obtain ⟨middle, event, events', stepped, remaining, rfl⟩ := run_cons_invert ran
      obtain ⟨fifo', moved, kept⟩ := refines.step stepped
      obtain ⟨final, accepted, ended⟩ := ih kept remaining
      exact ⟨final, .cons moved accepted, ended⟩

end Refines

/-! ## Sequence numbers of posts -/

end Session

/-- A `push_commit` outside a post. -/
def SessionStep.bareCommit {α : Type} : SessionStep α → Bool
  | .pushCommit => true
  | _ => false

namespace Session

variable {α : Type} {session after : Session α} {event : FifoEvent α}

/-- Every sequence number handed out belongs to a committed record, to a
dropped one, or to the post that is still open. -/
def SeqnumAccounted (session : Session α) : Prop :=
  session.ring.seqnum = session.ring.dropcnt + UInt64.ofNat session.committed.length +
    (if session.posting then 1 else 0)

theorem pushCommit_seqnumAccounted {session : Session α} (accounted : session.SeqnumAccounted)
    (posting : session.posting = true)
    (pushed : { session with posting := false }.pushCommit = some (after, event)) :
    after.SeqnumAccounted := by
  simp only [SeqnumAccounted, posting, if_true] at accounted
  by_cases full : session.ring.head = session.ring.tail
  · cases blocking : session.ring.blocking with
    | true => simp [pushCommit, Ringbuf.pushCommit, full, blocking] at pushed
    | false =>
        simp only [pushCommit, Ringbuf.pushCommit, full, blocking, if_true, Bool.false_eq_true,
          if_false, Option.some.injEq, Prod.mk.injEq] at pushed
        obtain ⟨rfl, -⟩ := pushed
        simp only [SeqnumAccounted, Ringbuf.incDropcnt, accounted, Bool.false_eq_true, if_false,
          UInt64.add_zero]
        rw [UInt64.add_assoc, UInt64.add_assoc, UInt64.add_comm 1]
  · simp only [pushCommit, Ringbuf.pushCommit, full, if_false, Option.some.injEq,
      Prod.mk.injEq] at pushed
    obtain ⟨rfl, -⟩ := pushed
    simp only [SeqnumAccounted, Ringbuf.commitTail, accounted, Bool.false_eq_true, if_false,
      UInt64.add_zero, List.length_append, List.length_cons, List.length_nil, Nat.zero_add]
    rw [UInt64.ofNat_add, ← UInt64.add_assoc]
    rfl

theorem step_seqnumAccounted {mayRewind : Session α → UInt32 → Bool} {first : SessionStep α}
    (accounted : session.SeqnumAccounted) (posted : first.bareCommit = false)
    (stepped : session.step mayRewind first = some (after, event)) : after.SeqnumAccounted := by
  cases first with
  | pushCommit => cases posted
  | finishUnlocked =>
      by_cases busy : session.posting = true
      · simp only [step, busy, if_true] at stepped
        exact pushCommit_seqnumAccounted accounted busy stepped
      · simp [step, busy] at stepped
  | beginUnlocked header =>
      by_cases busy : session.posting = true
      · simp [step, busy] at stepped
      · simp only [step, busy, Bool.false_eq_true, if_false, Option.some.injEq,
          Prod.mk.injEq] at stepped
        obtain ⟨rfl, -⟩ := stepped
        simp only [SeqnumAccounted, busy, Bool.false_eq_true, if_false, UInt64.add_zero]
          at accounted
        simp only [SeqnumAccounted, Ringbuf.incSeqnum, Ringbuf.store, accounted, if_true]
  | pushBegin | write | reset => cases stepped; exact accounted
  | popBegin =>
      cases found : session.ring.popBegin <;> simp only [step, found, Option.some.injEq,
        Prod.mk.injEq] at stepped <;> obtain ⟨rfl, -⟩ := stepped <;> exact accounted
  | popCommit =>
      by_cases opened : session.popping = true
      · simp only [step, opened, if_true, Option.some.injEq, Prod.mk.injEq] at stepped
        obtain ⟨rfl, -⟩ := stepped
        exact accounted
      · simp [step, opened] at stepped
  | next | rewind =>
      cases held : session.iterator with
      | none => simp [step, held] at stepped
      | some iterator =>
          simp only [step, held, Option.bind_eq_bind, Option.bind_some] at stepped
          split at stepped <;> simp only [Option.some.injEq, Prod.mk.injEq, reduceCtorEq] at stepped
          all_goals
            obtain ⟨rfl, -⟩ := stepped
            exact accounted
  | commit =>
      cases held : session.iterator with
      | none => simp [step, held] at stepped
      | some iterator =>
          simp only [step, held, Option.bind_eq_bind, Option.bind_some, Option.some.injEq,
            Prod.mk.injEq] at stepped
          obtain ⟨rfl, -⟩ := stepped
          exact accounted

theorem run_seqnumAccounted {mayRewind : Session α → UInt32 → Bool} {steps : List (SessionStep α)}
    {events : List (FifoEvent α)} (accounted : session.SeqnumAccounted)
    (posted : ∀ step ∈ steps, step.bareCommit = false)
    (ran : session.run mayRewind steps = some (after, events)) : after.SeqnumAccounted := by
  induction steps generalizing session events with
  | nil => cases ran; exact accounted
  | cons first rest ih =>
      obtain ⟨middle, event, events', stepped, remaining, -⟩ := run_cons_invert ran
      exact ih (step_seqnumAccounted accounted (posted first (by simp)) stepped)
        (fun step member => posted step (by simp [member])) remaining

/-! ## The queue the ring implements -/

theorem Refines.pushBegin_not_mem {fifo : BoundedFifo α} (refines : session.Refines fifo) :
    session.ring.pushBegin ∉ session.ring.queuedSlots := by
  rw [refines.spans.queuedSlots_eq]
  intro member
  obtain ⟨offset, inRange, same⟩ := List.mem_map.mp member
  rw [List.mem_range] at inRange
  exact refines.spans.slot_ne_tail (Nat.le_add_right _ offset) (by omega) same

theorem Refines.pushCommit_eq {fifo : BoundedFifo α} (refines : session.Refines fifo) :
    session.ring.pushCommit = (.dropped, session.ring.incDropcnt) ↔
      session.ring.queue.length = session.ring.capacity.toNat := by
  rw [refines.stores.queue_eq refines.spans, List.length_drop, ← refines.spans.full_iff]
  by_cases full : session.ring.head = session.ring.tail <;>
    simp [Ringbuf.pushCommit, full, refines.nonblocking]

/-- A ring of any power-of-two slot count behaves as a queue of one record
less, whatever the order in which its writer and its reader take their steps.
The trace of every such run is one the queue allows, with the contents read
equal to the contents committed; the slot being filled is never a readable
one; and a commit is dropped exactly when the queue is full. -/
theorem ring_refines_bounded_fifo {mask : UInt32} (isMask : IsMask mask) (slots : UInt32 → α)
    {steps : List (SessionStep α)} {events : List (FifoEvent α)}
    (ran : (fresh mask slots).run rewindsToOpen steps = some (session, events)) :
    (∃ fifo, (BoundedFifo.initial mask.toNat).Accepts events fifo ∧
      session.ring.queue = fifo.queue ∧ session.delivered = fifo.delivered) ∧
    session.committed = BoundedFifo.enqueuedValues events ∧
    session.delivered ++ session.ring.queue = session.committed ∧
    session.ring.pushBegin ∉ session.ring.queuedSlots ∧
    session.ring.queue.length ≤ mask.toNat ∧
    session.ring.size.toNat = session.ring.queue.length ∧
    session.ring.size.toNat + session.ring.room.toNat = mask.toNat ∧
    (session.ring.empty = true ↔ session.ring.size = 0) ∧
    (session.ring.pushCommit = (.dropped, session.ring.incDropcnt) ↔
      session.ring.queue.length = mask.toNat) ∧
    ((∀ step ∈ steps, step.bareCommit = false) → session.posting = false →
      session.ring.seqnum = session.ring.dropcnt + UInt64.ofNat session.committed.length) := by
  obtain ⟨fifo, accepted, refines⟩ := (fresh_refines isMask slots).run ran
  have capacity : session.ring.capacity.toNat = mask.toNat :=
    refines.bound.symm.trans accepted.bound
  have bounded := refines.spans.bounded
  have ordered := refines.spans.ordered
  have queue := refines.stores.queue_eq refines.spans
  have size := refines.spans.size_toNat
  have length : session.ring.queue.length = fifo.enqueued.length - fifo.consumed := by
    rw [queue, List.length_drop]
  refine ⟨⟨fifo, accepted, queue, refines.delivered⟩, ?_, ?_, refines.pushBegin_not_mem, ?_, ?_, ?_,
    ?_, ?_, ?_⟩
  · rw [refines.committed, ← fifo.delivered_append_queue, accepted.conservation]
    rfl
  · rw [queue, refines.delivered, refines.committed]
    exact fifo.delivered_append_queue
  · rw [length, ← capacity]
    exact bounded
  · rw [size, length]
  · rw [size, refines.spans.room_toNat, ← capacity]
    omega
  · rw [refines.spans.empty_iff, ← UInt32.toNat_inj, size, UInt32.toNat_zero]
    omega
  · rw [refines.pushCommit_eq, capacity]
  · intro posted closed
    have accounted := @run_seqnumAccounted _ (fresh mask slots) _ _ _ _ rfl posted ran
    simpa [SeqnumAccounted, closed] using accounted

/-- A post and a bare push on a ring of two slots; the second is dropped. -/
def twoSlotSteps : List (SessionStep Nat) :=
  [.beginUnlocked (fun seqnum => seqnum.toNat + 7), .finishUnlocked, .write 8, .pushCommit,
    .reset, .next, .next, .rewind 0, .commit]

theorem ring_refines_bounded_fifo_two_slots :
    ∃ session events,
      (fresh 1 (fun _ => 0)).run rewindsToOpen twoSlotSteps = some (session, events) ∧
      session.delivered = [7] ∧ session.ring.dropcnt = 1 ∧
      session.delivered ++ session.ring.queue = session.committed :=
  ⟨_, _, rfl, rfl, rfl,
    (@ring_refines_bounded_fifo _ _ 1 ⟨1, rfl⟩ (fun _ => 0) twoSlotSteps _ rfl).2.2.1⟩

/-- Rewinding to a record that was returned before the last commit moves the
head backwards: the second record below is delivered and queued again. -/
theorem ring_rewind_before_commit_requeues :
    ¬ ∀ (mask : UInt32), IsMask mask → ∀ (slots : UInt32 → Nat) (steps : List (SessionStep Nat))
      (session : Session Nat) (events : List (FifoEvent Nat)),
      (fresh mask slots).run rewindsToReturned steps = some (session, events) →
      session.delivered ++ session.ring.queue = session.committed := by
  intro refined
  have impossible := refined 3 ⟨2, rfl⟩ (fun _ => 0)
    [.write 1, .pushCommit, .write 2, .pushCommit, .reset, .next, .next, .commit, .rewind 0,
      .commit]
    _ _ rfl
  revert impossible
  decide

end Session

end Hogl.Ring
