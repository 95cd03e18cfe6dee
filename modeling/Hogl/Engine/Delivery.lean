import Hogl.Engine.Shapes

namespace Hogl.Polling

open Hogl.Data Hogl.Ring

/-! # Delivery in order, ring by ring

The records of one ring that were handed to `flush_record` are a prefix of
those committed to it.  The records of the ring that the TSO buffer holds are
the next ones, in order: their adjusted timestamps increase strictly, so a
sort that is not stable keeps them in place.
-/

/-- The clock of the ring being walked: the last timestamp pushed. -/
def Pc.clock : Pc → Option UInt64
  | .walk _ tsoTs | .doFlush _ (.full _ tsoTs) => some tsoTs
  | _ => none

/-- Adjusting the timestamps of `records` one after another, each is larger
than the one before. -/
def Climbs : UInt64 → List Record → Prop
  | _, [] => True
  | tsoTs, record :: rest =>
      tsoTs < Engine.adjust record.timestamp tsoTs ∧
        Climbs (Engine.adjust record.timestamp tsoTs) rest

/-- No part of the records that fits into a ring makes the clock wrap. -/
def Climbing (mask : UInt32) (records : List Record) : Prop :=
  ∀ part, part <:+: records → part.length ≤ mask.toNat → Climbs 0 part

theorem Climbing.of_prefix {mask : UInt32} {early late : List Record}
    (climbing : Climbing mask late) (earlier : early <+: late) : Climbing mask early :=
  fun part inside short => climbing part (inside.trans earlier.isInfix) short

namespace Shared

variable {shared after : Shared} {ring : RingId}

/-- A step that flushes and consumes nothing of one ring. -/
structure Untouched (ring : RingId) (before after : Shared) : Prop where
  flushed : after.flushed ring = before.flushed ring
  committed : before.committed ring <+: after.committed ring
  popped : after.popped ring = before.popped ring
  capacity : (after.rings ring).ring.capacity = (before.rings ring).ring.capacity
  stores : ∀ lower, before.popped ring ≤ lower →
    (before.rings ring).ring.Stores (before.committed ring) lower →
    (after.rings ring).ring.Stores (after.committed ring) lower

theorem Untouched.of_same (ringEq : (after.rings ring).ring = (shared.rings ring).ring)
    (committed : after.committed ring = shared.committed ring)
    (flushed : after.flushed ring = shared.flushed ring) : Untouched ring shared after := by
  refine ⟨flushed, by rw [committed], ?_, by rw [ringEq], fun lower above stores => ?_⟩
  · rw [Shared.popped, Shared.popped, ringEq, committed]
  · rw [ringEq, committed]
    exact stores

theorem flushed_log {event : Event} (ring : RingId)
    (other : ∀ record, event ≠ .flushed ring record) :
    (shared.log event).flushed ring = shared.flushed ring := by
  rw [flushed, flushed, log_trace, flushedTo_append, List.append_right_eq_self]
  cases event with
  | flushed owner record =>
      have different : owner ≠ ring := fun same => other record (by rw [same])
      simp [flushedTo, different]
  | _ => rfl

theorem Untouched.log {event : Event} (noCommit : ∀ record, event ≠ .committed ring record)
    (noFlush : ∀ record, event ≠ .flushed ring record) :
    Untouched ring shared (shared.log event) :=
  .of_same rfl (committed_log ring noCommit) (flushed_log ring noFlush)

theorem Untouched.refl (ring : RingId) (shared : Shared) : Untouched ring shared shared :=
  .of_same rfl rfl rfl

theorem ClientStep.untouched (client : ClientStep shared after) (spanned : shared.Spanned ring) :
    Untouched ring shared after :=
  ⟨client.flushed ring, client.committed_prefix ring, client.popped spanned,
    (client.same ring).capacity, fun _ above stores => client.stores spanned above stores⟩

end Shared

namespace Engine

variable {engine : Engine}

/-- The entries of the TSO buffer that carry one tag. -/
def pending (engine : Engine) (i : Nat) : List TsoEntry :=
  engine.tso.entries.filter fun te => te.tag == i

/-- How many records of the ring were handed to `flush_record`. -/
def handed (engine : Engine) (ring : RingId) : Nat := (engine.shared.flushed ring).length

/-- The entries with tag `i` are the records of `ring` that come next. -/
structure Queued (engine : Engine) (ring : RingId) (i : Nat) : Prop where
  slots : (engine.pending i).map (·.slot) = (List.range (engine.pending i).length).map
    fun offset => slotOf (engine.obj ring).ring.capacity (engine.handed ring + offset)
  rising : (engine.pending i).Pairwise fun first second => first.timestamp < second.timestamp
  bounded : engine.handed ring + (engine.pending i).length ≤ (engine.shared.committed ring).length

structure Delivering (ring : RingId) (engine : Engine) : Prop where
  delivered : engine.shared.flushed ring <+: engine.shared.committed ring
  stores : (engine.obj ring).ring.Stores (engine.shared.committed ring) (engine.handed ring)
  above : engine.shared.popped ring ≤ engine.handed ring
  unindexed : (∀ i, engine.ringAt i ≠ some ring) → engine.shared.popped ring = engine.handed ring
  rested : ∀ (i : Nat) (entry : IndexEntry), engine.index[i]? = some entry →
    entry.ring = some ring → entry.lastrec = none → engine.pc ≠ .drain i →
    engine.shared.popped ring = engine.handed ring
  advanced : ∀ (i : Nat) (entry : IndexEntry) (slot : UInt32), engine.index[i]? = some entry →
    entry.ring = some ring → entry.lastrec = some slot →
    engine.shared.popped ring < engine.handed ring ∧
      slot = slotOf (engine.obj ring).ring.capacity (engine.handed ring - 1)
  queued : ∀ i, engine.ringAt i = some ring → engine.Queued ring i
  walking : ∀ (i : Nat) (entry : IndexEntry), engine.pc.Walking i →
    engine.index[i]? = some entry → entry.ring = some ring → ∃ limit,
      entry.pit.Stands (engine.obj ring).ring.capacity
        (engine.handed ring + (engine.pending i).length) limit ∧
      limit ≤ (engine.shared.committed ring).length ∧
      ∀ tsoTs, engine.pc.clock = some tsoTs →
        (∀ te ∈ engine.pending i, te.timestamp ≤ tsoTs) ∧
        Climbs tsoTs (((engine.shared.committed ring).take limit).drop
          (engine.handed ring + (engine.pending i).length))

/-- A step that leaves everything about one ring in place. -/
structure SameView (ring : RingId) (before after : Engine) : Prop where
  shared : Shared.Untouched ring before.shared after.shared
  index : ∀ (i : Nat) (entry : IndexEntry), after.index[i]? = some entry →
    entry.ring = some ring → ∃ old, before.index[i]? = some old ∧ old.ring = some ring ∧
      entry.lastrec = old.lastrec ∧ entry.pit = old.pit
  kept : ∀ i, before.ringAt i = some ring → after.ringAt i = some ring
  pending : ∀ i, after.ringAt i = some ring → after.pending i = before.pending i
  drains : ∀ i, before.pc = .drain i → after.ringAt i = some ring → after.pc = .drain i
  walking : ∀ i, after.pc.Walking i → after.ringAt i = some ring →
    before.pc.Walking i ∧ after.pc.clock = before.pc.clock

theorem SameView.ringAt {ring : RingId} {after : Engine} (view : SameView ring engine after)
    {i : Nat} (found : after.ringAt i = some ring) : engine.ringAt i = some ring := by
  obtain ⟨entry, read, valid⟩ := ringAt_eq_some.mp found
  obtain ⟨old, oldRead, oldValid, -⟩ := view.index i entry read valid
  exact ringAt_eq_some.mpr ⟨old, oldRead, oldValid⟩

theorem Delivering.view {ring : RingId} {after : Engine} (delivering : engine.Delivering ring)
    (view : SameView ring engine after) : after.Delivering ring := by
  have handed : after.handed ring = engine.handed ring := by
    rw [Engine.handed, view.shared.flushed, Engine.handed]
  have longer := view.shared.committed.length_le
  have capacity : (after.obj ring).ring.capacity = (engine.obj ring).ring.capacity :=
    view.shared.capacity
  refine ⟨?_, ?_, ?_, ?_, ?_, ?_, ?_, ?_⟩
  · rw [view.shared.flushed]
    exact delivering.delivered.trans view.shared.committed
  · rw [handed]
    exact view.shared.stores _ delivering.above delivering.stores
  · rw [handed, view.shared.popped]
    exact delivering.above
  · intro nowhere
    rw [handed, view.shared.popped]
    exact delivering.unindexed fun i found => nowhere i (view.kept i found)
  · intro i entry read valid none place
    obtain ⟨old, oldRead, oldValid, lastrec, -⟩ := view.index i entry read valid
    rw [handed, view.shared.popped]
    apply delivering.rested i old oldRead oldValid (lastrec.symm.trans none)
    exact fun drains => place (view.drains i drains (ringAt_eq_some.mpr ⟨entry, read, valid⟩))
  · intro i entry slot read valid last
    obtain ⟨old, oldRead, oldValid, lastrec, -⟩ := view.index i entry read valid
    rw [handed, view.shared.popped, capacity]
    exact delivering.advanced i old slot oldRead oldValid (lastrec.symm.trans last)
  · intro i found
    have queued := delivering.queued i (view.ringAt found)
    refine ⟨?_, ?_, ?_⟩ <;> rw [view.pending i found]
    · rw [capacity, handed]
      exact queued.slots
    · exact queued.rising
    · rw [handed]
      exact queued.bounded.trans longer
  · intro i entry walks read valid
    have found : after.ringAt i = some ring := ringAt_eq_some.mpr ⟨entry, read, valid⟩
    obtain ⟨old, oldRead, oldValid, -, pit⟩ := view.index i entry read valid
    obtain ⟨oldWalks, clock⟩ := view.walking i walks found
    obtain ⟨limit, stands, upper, climbs⟩ := delivering.walking i old oldWalks oldRead oldValid
    obtain ⟨more, extended⟩ := view.shared.committed
    refine ⟨limit, ?_, upper.trans longer, ?_⟩
    · rw [pit, capacity, handed, view.pending i found]
      exact stands
    · rw [clock, handed, view.pending i found, ← extended,
        List.take_append_of_le_length upper]
      exact climbs

namespace SameView

variable {ring : RingId} {after : Engine}

theorem client {shared : Shared} (sound : engine.Sound)
    (step : Shared.ClientStep engine.shared shared) :
    SameView ring engine { engine with shared } :=
  ⟨step.untouched (sound.tracked.spanned ring), fun _ entry read valid => ⟨entry, read, valid, rfl, rfl⟩,
    fun _ found => found, fun _ _ => rfl, fun _ place _ => place, fun _ walks _ => ⟨walks, rfl⟩⟩

/-- A step that leaves the index alone, and the entries of every tag. -/
theorem moved (shared : Shared.Untouched ring engine.shared after.shared)
    (index : after.index = engine.index)
    (pending : ∀ i, engine.ringAt i = some ring → after.pending i = engine.pending i)
    (drains : ∀ i, engine.pc = .drain i → after.pc = .drain i)
    (walking : ∀ i, after.pc.Walking i →
      engine.pc.Walking i ∧ after.pc.clock = engine.pc.clock) :
    SameView ring engine after := by
  have ringAt : after.ringAt = engine.ringAt := by
    funext i
    rw [Engine.ringAt, index, Engine.ringAt]
  refine ⟨shared, ?_, ?_, ?_, fun i place _ => drains i place, fun i walks _ => walking i walks⟩
  · rw [index]
    exact fun _ entry read valid => ⟨entry, read, valid, rfl, rfl⟩
  · rw [ringAt]
    exact fun _ found => found
  · rw [ringAt]
    exact pending

theorem goes {pc : Pc} (outside : ∀ i, engine.pc ≠ .drain i) (still : ∀ i, ¬ pc.Walking i) :
    SameView ring engine (engine.goto pc) :=
  moved (.refl ring _) rfl (fun _ _ => rfl) (fun i place => absurd place (outside i))
    (fun i walks => absurd walks (still i))

/-- A step that rewrites index entry `i`, which belongs to another ring. -/
theorem elsewhere {i : Nat} {entry updated : IndexEntry}
    (shared : Shared.Untouched ring engine.shared after.shared)
    (found : engine.index[i]? = some entry) (other : entry.ring ≠ some ring)
    (index : after.index = engine.index.set i updated) (still : updated.ring ≠ some ring)
    (pending : ∀ j, j ≠ i → after.pending j = engine.pending j)
    (drains : ∀ j, j ≠ i → engine.pc = .drain j → after.pc = .drain j)
    (walking : ∀ j, j ≠ i → after.pc.Walking j →
      engine.pc.Walking j ∧ after.pc.clock = engine.pc.clock) :
    SameView ring engine after := by
  have away {j : Nat} (at' : after.ringAt j = some ring) : j ≠ i := by
    rintro rfl
    obtain ⟨here, read, valid⟩ := ringAt_eq_some.mp at'
    rw [index, List.getElem?_set_self (List.getElem?_eq_some_iff.mp found).1] at read
    exact still (by rw [Option.some.inj read, valid])
  refine ⟨shared, ?_, ?_, fun j at' => pending j (away at'), fun j place at' => drains j (away at')
    place, fun j walks at' => walking j (away at') walks⟩
  · intro j here read valid
    have different := away (ringAt_eq_some.mpr ⟨here, read, valid⟩)
    rw [index, List.getElem?_set_ne different.symm] at read
    exact ⟨here, read, valid, rfl, rfl⟩
  · intro j at'
    obtain ⟨here, read, valid⟩ := ringAt_eq_some.mp at'
    have different : i ≠ j := by
      rintro rfl
      exact other (by rw [Option.some.inj (found.symm.trans read), valid])
    exact ringAt_eq_some.mpr ⟨here, by rw [index, List.getElem?_set_ne different, read], valid⟩

end SameView

theorem less_weak : StrictWeak Tsobuf.less where
  asymm a b first := by
    simp only [Tsobuf.less, decide_eq_true_eq, decide_eq_false_iff_not, UInt64.not_lt] at first ⊢
    exact UInt64.le_of_lt first
  cotrans a b c first := by
    simp only [Tsobuf.less, decide_eq_true_eq, UInt64.lt_iff_toNat_lt] at first ⊢
    omega

/-- Sorting leaves the entries of a ring where they are. -/
theorem Queued.sort {ring : RingId} {i : Nat} (queued : engine.Queued ring i) (std : StdSort) :
    (engine.tso.sort std).entries.filter (fun te => te.tag == i) = engine.pending i := by
  apply std.filter_sort less_weak
  exact queued.rising.imp fun rises => decide_eq_true rises

theorem Handed.untouched {after : Engine} {ring owner : RingId} {slot : UInt32}
    (handed : Handed engine after owner slot) (other : owner ≠ ring) :
    Shared.Untouched ring engine.shared after.shared :=
  .of_same (handed.others ring other.symm) (handed.committed ring) (handed.flushed_other other.symm)

/-- The first of the entries of a ring is its next record. -/
theorem Queued.split {ring : RingId} {i : Nat} {te : TsoEntry} {queue : List TsoEntry}
    (queued : engine.Queued ring i) (pendingEq : engine.pending i = te :: queue) :
    te.slot = slotOf (engine.obj ring).ring.capacity (engine.handed ring) ∧
    queue.map (·.slot) = (List.range queue.length).map (fun offset =>
      slotOf (engine.obj ring).ring.capacity (engine.handed ring + 1 + offset)) ∧
    queue.Pairwise (fun first second => first.timestamp < second.timestamp) ∧
    engine.handed ring + 1 + queue.length ≤ (engine.shared.committed ring).length := by
  have slots := queued.slots
  have bounded := queued.bounded
  have rising := queued.rising
  rw [pendingEq, List.length_cons, List.range_succ_eq_map, List.map_cons, List.map_cons,
    List.map_map] at slots
  rw [pendingEq, List.length_cons] at bounded
  rw [pendingEq] at rising
  obtain ⟨first, later⟩ := List.cons.inj slots
  refine ⟨first, ?_, rising.of_cons, by omega⟩
  rw [later]
  apply List.map_congr_left
  intro offset _
  rw [Function.comp_apply, Nat.succ_eq_add_one, Nat.add_assoc, Nat.add_comm 1 offset]

namespace Delivering

variable {ring : RingId}

theorem flushing (delivering : engine.Delivering ring) (std : StdSort) {i : Nat}
    (place : engine.pc = .scan i) : (engine.flushTso std).Delivering ring := by
  apply delivering.view
  refine .moved (.refl ring _) rfl ?_ ?_ (fun _ walks => walks.elim)
  · intro j found
    simp only [flushTso, pending]
    split
    · rfl
    · exact (delivering.queued j found).sort std
  · intro j drains
    rw [place] at drains
    cases drains

/-- The engine's iterator and the one this invariant speaks of stand at the
same record. -/
theorem passed_eq {i passed limit : Nat} {entry : IndexEntry} (delivering : engine.Delivering ring)
    (sound : engine.Sound) (walks : engine.pc.Walking i)
    (here : engine.AtRecord i entry ring passed limit) :
    passed = engine.handed ring + (engine.pending i).length ∧
      (∀ tsoTs, engine.pc.clock = some tsoTs → (∀ te ∈ engine.pending i, te.timestamp ≤ tsoTs) ∧
        Climbs tsoTs (((engine.shared.committed ring).take limit).drop passed)) := by
  obtain ⟨limit', stands, upper, climbs⟩ :=
    delivering.walking i entry walks here.found here.valid
  have spans := sound.tracked.spanned ring
  have bounded := spans.bounded
  have ordered := here.stands.ordered
  have ordered' := stands.ordered
  have upperHere := here.upper
  have lower := here.lower
  have above := delivering.above
  have isMask := spans.isMask
  have same := (here.stands.next_slot isMask).symm.trans (stands.next_slot isMask)
  have passedEq : passed = engine.handed ring + (engine.pending i).length :=
    slotOf_injective isMask same (by rw [slotCount]; omega) (by rw [slotCount]; omega)
  have limitEq : limit = limit' :=
    slotOf_injective isMask (here.stands.tail.symm.trans stands.tail) (by rw [slotCount]; omega)
      (by rw [slotCount]; omega)
  subst limitEq
  rw [passedEq]
  exact ⟨rfl, climbs⟩

theorem handed_le (delivering : engine.Delivering ring) :
    engine.handed ring ≤ (engine.shared.committed ring).length := delivering.delivered.length_le

/-- The next record to hand over is the one committed at that position. -/
theorem record_at {position : Nat} (delivering : engine.Delivering ring)
    (above : engine.handed ring ≤ position)
    (inside : position < (engine.shared.committed ring).length) :
    (engine.obj ring).ring.slots (slotOf (engine.obj ring).ring.capacity position) =
      (engine.shared.committed ring)[position] :=
  delivering.stores position _ above (List.getElem?_eq_getElem inside)

theorem reset_other {i : Nat} {entry : IndexEntry} {owner : RingId} {pc : Pc}
    (delivering : engine.Delivering ring) (place : engine.pc = .scan i)
    (found : engine.index[i]? = some entry) (valid : entry.ring = some owner)
    (other : owner ≠ ring) (goes : pc = .drain i ∨ pc = .walk i 0) :
    (((engine.setEntry i { entry with pit := .reset (engine.obj owner).ring }).log
      (.snapshot owner)).goto pc).Delivering ring := by
  have away : entry.ring ≠ some ring := by
    rw [valid]
    exact fun same => other (Option.some.inj same)
  apply delivering.view
  refine .elsewhere (.log (by simp) (by simp)) found away rfl away (fun _ _ => rfl) ?_ ?_
  · intro j _ drains
    rw [place] at drains
    cases drains
  · intro j different walks
    rcases goes with rfl | rfl <;> exact absurd walks different

/-- A step that moves the iterator of the ring and hands nothing over. -/
theorem repit {after : Engine} {i : Nat} {entry : IndexEntry} {pit : PopIterator}
    (delivering : engine.Delivering ring)
    (untouched : Shared.Untouched ring engine.shared after.shared)
    (found : engine.index[i]? = some entry) (valid : entry.ring = some ring)
    (index : after.index = engine.index.set i { entry with pit })
    (idle : ∀ j, engine.pc ≠ .drain j)
    (queued : ∀ j, after.ringAt j = some ring → after.Queued ring j)
    (walking : ∀ (j : Nat) (other : IndexEntry), after.pc.Walking j →
      after.index[j]? = some other → other.ring = some ring → ∃ limit,
        other.pit.Stands (after.obj ring).ring.capacity
          (after.handed ring + (after.pending j).length) limit ∧
        limit ≤ (after.shared.committed ring).length ∧
        ∀ tsoTs, after.pc.clock = some tsoTs →
          (∀ te ∈ after.pending j, te.timestamp ≤ tsoTs) ∧
          Climbs tsoTs (((after.shared.committed ring).take limit).drop
            (after.handed ring + (after.pending j).length))) : after.Delivering ring := by
  have handed : after.handed ring = engine.handed ring := congrArg List.length untouched.flushed
  have capacity : (after.obj ring).ring.capacity = (engine.obj ring).ring.capacity :=
    untouched.capacity
  have inside := (List.getElem?_eq_some_iff.mp found).1
  have here : after.ringAt i = some ring :=
    ringAt_eq_some.mpr ⟨{ entry with pit }, by rw [index, List.getElem?_set_self inside], valid⟩
  refine ⟨?_, ?_, ?_, fun nowhere => absurd here (nowhere i), ?_, ?_, queued, walking⟩
  · exact untouched.flushed ▸ delivering.delivered.trans untouched.committed
  · rw [handed]
    exact untouched.stores _ delivering.above delivering.stores
  · rw [handed, untouched.popped]
    exact delivering.above
  · rw [index]
    intro j other read owns none _
    obtain ⟨old, oldRead, ringEq, lastEq⟩ := Tracked.setPit_read found read
    rw [handed, untouched.popped]
    exact delivering.rested j old oldRead (ringEq.symm.trans owns) (lastEq.symm.trans none) (idle j)
  · rw [index]
    intro j other slot read owns last
    obtain ⟨old, oldRead, ringEq, lastEq⟩ := Tracked.setPit_read found read
    rw [handed, untouched.popped, capacity]
    exact delivering.advanced j old slot oldRead (ringEq.symm.trans owns) (lastEq.symm.trans last)

theorem reset_own {i : Nat} {entry : IndexEntry} {pc : Pc} (delivering : engine.Delivering ring)
    (sound : engine.Sound)
    (climbing : Climbing (engine.obj ring).ring.capacity (engine.shared.committed ring))
    (place : engine.pc = .scan i) (found : engine.index[i]? = some entry)
    (valid : entry.ring = some ring) (goes : pc = .drain i ∨ pc = .walk i 0) :
    (((engine.setEntry i { entry with pit := .reset (engine.obj ring).ring }).log
      (.snapshot ring)).goto pc).Delivering ring := by
  have before (j : Nat) (scanned : engine.pc.Scanned j) : j < i := by rwa [place] at scanned
  have idle (j : Nat) : engine.pc ≠ .drain j := by
    rw [place]
    exact fun drains => by cases drains
  have untouched : Shared.Untouched ring engine.shared (engine.shared.log (.snapshot ring)) :=
    .log (by simp) (by simp)
  have committed : (engine.shared.log (.snapshot ring)).committed ring =
      engine.shared.committed ring := Shared.committed_log ring (by simp)
  have handed : (((engine.setEntry i { entry with pit := .reset (engine.obj ring).ring }).log
      (.snapshot ring)).goto pc).handed ring = engine.handed ring :=
    congrArg List.length untouched.flushed
  have settled : entry.lastrec = none :=
    sound.tracked.unscanned found fun scanned => Nat.lt_irrefl i (before i scanned)
  have consumed := delivering.rested i entry found valid settled (idle i)
  have nothing : engine.pending i = [] := by
    refine List.filter_eq_nil_iff.mpr fun te member same => ?_
    have earlier := before te.tag (sound.tracked.tagScanned te member)
    exact Nat.ne_of_lt earlier (beq_iff_eq.mp same)
  have ringAt := ringAt_setEntry_same found { entry with pit := .reset (engine.obj ring).ring } rfl
  have inside := (List.getElem?_eq_some_iff.mp found).1
  refine delivering.repit untouched found valid rfl idle ?_ ?_
  · intro j at'
    have queued := delivering.queued j ((congrFun ringAt j).symm.trans at')
    refine ⟨?_, queued.rising, ?_⟩ <;> rw [handed]
    · exact queued.slots
    · exact queued.bounded.trans untouched.committed.length_le
  · intro j other walks read owns
    obtain rfl : j = i := by
      rcases goes with rfl | rfl <;> exact walks
    obtain rfl : { entry with pit := .reset (engine.obj ring).ring } = other := by
      have stored := (List.getElem?_set_self inside).symm.trans read
      exact Option.some.inj stored
    have spans := sound.tracked.spanned ring
    rw [handed, show (((engine.setEntry j { entry with pit := .reset (engine.obj ring).ring }).log
      (.snapshot ring)).goto pc).pending j = [] from nothing, List.length_nil, Nat.add_zero]
    refine ⟨(engine.shared.committed ring).length, ?_, untouched.committed.length_le, ?_⟩
    · rw [← consumed]
      exact PopIterator.Stands.reset spans
    · intro tsoTs clock
      obtain rfl : tsoTs = 0 := by
        rcases goes with rfl | rfl
        · cases clock
        · exact (Option.some.inj clock).symm
      refine ⟨List.forall_mem_nil _, climbing _ ?_ ?_⟩
      · exact committed.symm ▸ (List.drop_suffix _ _).isInfix.trans (List.take_prefix _ _).isInfix
      · have bounded := spans.bounded
        change (List.drop _ (List.take _ ((engine.shared.log (.snapshot ring)).committed ring))).length
          ≤ (engine.shared.rings ring).ring.capacity.toNat
        rw [committed, List.take_length, List.length_drop]
        omega

theorem pending_push {i j : Nat} {entry : IndexEntry} {pit : PopIterator} {te : TsoEntry}
    (tag : te.tag = i) : (engine.pushRecord i entry pit te).pending j =
      if j = i then engine.pending i ++ [te] else engine.pending j := by
  simp only [pushRecord, Tsobuf.push, pending, List.filter_append]
  split
  · rename_i same
    subst same
    simp [tag]
  · rename_i different
    simp [tag, Ne.symm different]

theorem push_other {i passed : Nat} {tsoTs : UInt64} {entry : IndexEntry} {owner : RingId}
    (delivering : engine.Delivering ring) (place : engine.pc = .walk i tsoTs)
    (found : engine.index[i]? = some entry) (valid : entry.ring = some owner)
    (other : owner ≠ ring) :
    (engine.pushRecord i entry (engine.beyond entry owner passed)
      (engine.entryFor i tsoTs owner passed)).Delivering ring := by
  have away : entry.ring ≠ some ring := by
    rw [valid]
    exact fun same => other (Option.some.inj same)
  apply delivering.view
  refine .elsewhere (.log (by simp) (by simp)) found away rfl away ?_ ?_ ?_
  · intro j different
    rw [pending_push (show (engine.entryFor i tsoTs owner passed).tag = i from rfl),
      if_neg different]
  · intro j _ drains
    rw [place] at drains
    cases drains
  · intro j different walks
    exact absurd walks different

theorem push_own {i passed limit : Nat} {tsoTs : UInt64} {entry : IndexEntry}
    (delivering : engine.Delivering ring) (sound : engine.Sound)
    (place : engine.pc = .walk i tsoTs) (here : engine.AtRecord i entry ring passed limit)
    (more : passed < limit) :
    (engine.pushRecord i entry (engine.beyond entry ring passed)
      (engine.entryFor i tsoTs ring passed)).Delivering ring := by
  obtain ⟨passedEq, climbs⟩ := delivering.passed_eq sound (by rw [place]; rfl) here
  obtain ⟨before, climbs⟩ := climbs tsoTs (by rw [place]; rfl)
  have upper := here.upper
  have idle (j : Nat) : engine.pc ≠ .drain j := by
    rw [place]
    exact fun drains => by cases drains
  have at' : engine.ringAt i = some ring := ringAt_eq_some.mpr ⟨entry, here.found, here.valid⟩
  -- The clock moves on to the timestamp of the record that is pushed.
  have record := @record_at engine ring passed delivering (by omega) (by omega)
  have split : (((engine.shared.committed ring).take limit).drop passed) =
      (engine.shared.committed ring)[passed] ::
        ((engine.shared.committed ring).take limit).drop (passed + 1) := by
    rw [List.drop_eq_getElem_cons (by rw [List.length_take]; omega), List.getElem_take]
  rw [split, Climbs, ← record] at climbs
  obtain ⟨climb, rest⟩ := climbs
  obtain ⟨te, teEq⟩ : ∃ te, te = engine.entryFor i tsoTs ring passed := ⟨_, rfl⟩
  have tag : te.tag = i := by rw [teEq]; rfl
  have slot : te.slot = slotOf (engine.obj ring).ring.capacity passed := by rw [teEq]; rfl
  have timestamp : te.timestamp = adjust ((engine.obj ring).ring.slots
      (slotOf (engine.obj ring).ring.capacity passed)).timestamp tsoTs := by rw [teEq]; rfl
  rw [← timestamp] at climb rest
  rw [← teEq]
  obtain ⟨after, afterEq⟩ : ∃ after, after =
    engine.pushRecord i entry (engine.beyond entry ring passed) te := ⟨_, rfl⟩
  rw [← afterEq]
  have untouched : Shared.Untouched ring engine.shared after.shared := by
    rw [afterEq]
    exact .log (by simp) (by simp)
  have committed : after.shared.committed ring = engine.shared.committed ring := by
    rw [afterEq]
    exact Shared.committed_log ring (by simp)
  have handed : after.handed ring = engine.handed ring := congrArg List.length untouched.flushed
  have index : after.index = engine.index.set i
      { entry with pit := engine.beyond entry ring passed } := by rw [afterEq]; rfl
  have capacity : (after.obj ring).ring.capacity = (engine.obj ring).ring.capacity :=
    untouched.capacity
  have pending : after.pending i = engine.pending i ++ [te] := by
    rw [afterEq, pending_push tag, if_pos rfl]
  have pc : after.pc = .walk i te.timestamp := by rw [afterEq]; rfl
  have ringAt : after.ringAt = engine.ringAt := by
    rw [afterEq]
    exact ringAt_setEntry_same here.found
      { entry with pit := engine.beyond entry ring passed } rfl
  have inside := (List.getElem?_eq_some_iff.mp here.found).1
  refine delivering.repit untouched here.found here.valid index idle ?_ ?_
  · rw [ringAt]
    intro j owns
    obtain rfl : j = i := sound.registered.distinct j i ring owns at'
    have queued := delivering.queued j owns
    refine ⟨?_, ?_, ?_⟩ <;> rw [pending]
    · rw [List.map_append, List.length_append, List.length_singleton, List.range_succ,
        List.map_append, queued.slots, handed, capacity, List.map_singleton, List.map_singleton,
        slot, ← passedEq]
    · refine List.pairwise_append.mpr ⟨queued.rising, List.pairwise_singleton _ _, ?_⟩
      intro first member last new
      rw [List.mem_singleton.mp new]
      exact UInt64.lt_of_le_of_lt (before first member) climb
    · rw [handed, committed, List.length_append, List.length_singleton]
      omega
  · intro j other walks read owns
    obtain rfl : j = i := by rwa [pc] at walks
    obtain rfl : { entry with pit := engine.beyond entry ring passed } = other := by
      rw [index, List.getElem?_set_self inside] at read
      exact Option.some.inj read
    have next : engine.handed ring + (engine.pending j ++ [te]).length = passed + 1 := by
      rw [List.length_append, List.length_singleton]
      omega
    rw [handed, pending, next, committed, capacity]
    refine ⟨limit, here.stands.advance (sound.tracked.spanned ring).isMask more, upper, ?_⟩
    rw [pc]
    rintro _ ⟨⟩
    refine ⟨?_, rest⟩
    intro other member
    rcases List.mem_append.mp member with old | new
    · exact UInt64.le_of_lt (UInt64.lt_of_le_of_lt (before other old) climb)
    · rw [List.mem_singleton.mp new]
      exact UInt64.le_refl _

/-- The emergency flush sorts the buffer and puts its mark into the output. -/
theorem flushFull {i : Nat} {tsoTs : UInt64} (delivering : engine.Delivering ring)
    (std : StdSort) (place : engine.pc = .walk i tsoTs) :
    (engine.flushFullTso std i tsoTs).Delivering ring := by
  apply delivering.view
  have marked : Shared.Untouched ring engine.shared engine.markTsoFull.shared ∧
      engine.markTsoFull.index = engine.index := by
    rcases engine.markTsoFull_cases with same | ⟨event, injected, same⟩ | same <;> rw [same]
    · exact ⟨.refl ring _, rfl⟩
    · refine ⟨.log ?_ ?_, rfl⟩
      · rintro record rfl
        cases injected
      · rintro record rfl
        cases injected
    · exact ⟨.log (by simp) (by simp), rfl⟩
  refine .moved marked.1 marked.2 (fun j found => (delivering.queued j found).sort std) ?_ ?_
  · intro j drains
    rw [place] at drains
    cases drains
  · intro j walks
    rw [place]
    exact ⟨walks, rfl⟩

/-- Handing over the next record of the ring extends the delivered prefix. -/
theorem handOver {start after : Engine} {slot : UInt32} (delivering : engine.Delivering ring)
    (sound : engine.Sound) (same : start.shared = engine.shared)
    (given : Handed start after ring slot)
    (next : slot = slotOf (engine.obj ring).ring.capacity (engine.handed ring))
    (more : engine.handed ring < (engine.shared.committed ring).length) :
    after.shared.flushed ring <+: after.shared.committed ring ∧
    after.handed ring = engine.handed ring + 1 ∧
    (after.obj ring).ring.Stores (after.shared.committed ring) (engine.handed ring + 1) := by
  have record := delivering.record_at (Nat.le_refl _) more
  have ringEq : (start.obj ring).ring = (engine.obj ring).ring := by rw [obj, same, obj]
  have flushed := given.flushed
  obtain ⟨value, stored, -⟩ := given.stored
  have committed := given.committed ring
  rw [ringEq, same] at flushed
  rw [ringEq] at stored
  rw [same] at committed
  refine ⟨?_, ?_, ?_⟩
  · rw [flushed, committed, next, record]
    obtain ⟨rest, whole⟩ := delivering.delivered
    have first : (engine.shared.committed ring)[engine.handed ring]? = rest[0]? := by
      rw [← whole, Engine.handed, List.getElem?_append_right (Nat.le_refl _), Nat.sub_self]
    rw [List.getElem?_eq_getElem more] at first
    cases rest with
    | nil => cases first
    | cons head tail =>
        rw [Option.some.inj first]
        exact ⟨tail, by rw [List.append_assoc, List.singleton_append, whole]⟩
  · rw [Engine.handed, flushed, List.length_append, List.length_singleton, Engine.handed]
  · rw [stored, committed, next]
    exact (delivering.stores.mono (Nat.le_succ _)).store_passed (sound.tracked.spanned ring)
      delivering.above (Nat.lt_succ_self _) value

theorem pending_popTo {left : Nat} {caller : Caller} {te : TsoEntry} {rest : List TsoEntry}
    (entries : engine.tso.entries = te :: rest) (i : Nat) :
    engine.pending i = if te.tag = i then te :: (engine.popTo left caller rest).pending i
      else (engine.popTo left caller rest).pending i := by
  simp only [pending, popTo, entries, List.filter_cons, beq_iff_eq]

theorem pop_other {left : Nat} {caller : Caller} {te : TsoEntry} {rest : List TsoEntry}
    {entry : IndexEntry} {owner : RingId} (delivering : engine.Delivering ring)
    (place : engine.pc = .doFlush (left + 1) caller) (entries : engine.tso.entries = te :: rest)
    (found : engine.index[te.tag]? = some entry) (valid : entry.ring = some owner)
    (other : owner ≠ ring) :
    ((engine.popTo left caller rest).flushEntry te).Delivering ring := by
  have away : entry.ring ≠ some ring := by
    rw [valid]
    exact fun same => other (Option.some.inj same)
  have handed : Handed (engine.popTo left caller rest)
    ((engine.popTo left caller rest).flushEntry te) owner te.slot := flushEntry_handed found valid
  apply delivering.view
  refine .elsewhere (handed.untouched other) found away (flushEntry_index found valid) away ?_ ?_ ?_
  · intro j different
    rw [@pending_popTo engine left caller te rest entries j, if_neg different.symm, pending,
      handed.tso]
    rfl
  · intro j _ drains
    rw [place] at drains
    cases drains
  · intro j _ walks
    rw [handed.pc] at walks ⊢
    rw [place]
    cases caller <;> exact ⟨walks, rfl⟩

/-- What popping the oldest entry of the buffer does to the ring the entry is of: the ring's next
record is handed over, and its place in the index remembers that record. -/
structure Popped (engine after : Engine) (ring : RingId) (te : TsoEntry) (entry : IndexEntry) :
    Prop where
  indexed : engine.ringAt te.tag = some ring
  slot : te.slot = slotOf (engine.obj ring).ring.capacity (engine.handed ring)
  more : engine.handed ring < (engine.shared.committed ring).length
  committed : after.shared.committed ring = engine.shared.committed ring
  handed : after.handed ring = engine.handed ring + 1
  ringAt : after.ringAt = engine.ringAt
  sole : ∀ (j : Nat) (other : IndexEntry), after.index[j]? = some other →
    other.ring = some ring → j = te.tag ∧ other = { entry with
      lastrec := some te.slot
      seqnum := UInt64.ofNat ((engine.obj ring).ring.slots te.slot).seqnum.toNat + 1 }

theorem popped {left : Nat} {caller : Caller} {te : TsoEntry} {rest : List TsoEntry}
    {entry : IndexEntry} (delivering : engine.Delivering ring) (sound : engine.Sound)
    (entries : engine.tso.entries = te :: rest) (found : engine.index[te.tag]? = some entry)
    (valid : entry.ring = some ring) :
    Popped engine ((engine.popTo left caller rest).flushEntry te) ring te entry := by
  have indexed : engine.ringAt te.tag = some ring := ringAt_eq_some.mpr ⟨entry, found, valid⟩
  have pending := @pending_popTo engine left caller te rest entries te.tag
  rw [if_pos rfl] at pending
  obtain ⟨slot, -, -, bounded⟩ := (delivering.queued te.tag indexed).split pending
  have given : Handed (engine.popTo left caller rest)
    ((engine.popTo left caller rest).flushEntry te) ring te.slot := flushEntry_handed found valid
  have ringAt : ((engine.popTo left caller rest).flushEntry te).ringAt = engine.ringAt :=
    (Kept.flushEntry (show (engine.popTo left caller rest).index[te.tag]? = some entry from
      found) valid).ringAt
  refine ⟨indexed, slot, by omega, given.committed ring, ?_, ringAt, ?_⟩
  · rw [Engine.handed, given.flushed, List.length_append, List.length_singleton]
    rfl
  · intro j other read owns
    have same : j = te.tag := sound.registered.distinct j te.tag ring
      (ringAt ▸ ringAt_eq_some.mpr ⟨other, read, owns⟩) indexed
    have index : ((engine.popTo left caller rest).flushEntry te).index =
        engine.index.set te.tag { entry with
          lastrec := some te.slot
          seqnum := UInt64.ofNat ((engine.obj ring).ring.slots te.slot).seqnum.toNat + 1 } :=
      flushEntry_index found valid
    rw [same, index, List.getElem?_set_self (List.getElem?_eq_some_iff.mp found).1] at read
    exact ⟨same, (Option.some.inj read).symm⟩

theorem pop_own {left : Nat} {caller : Caller} {te : TsoEntry} {rest : List TsoEntry}
    {entry : IndexEntry} (delivering : engine.Delivering ring) (sound : engine.Sound)
    (place : engine.pc = .doFlush (left + 1) caller) (entries : engine.tso.entries = te :: rest)
    (found : engine.index[te.tag]? = some entry) (valid : entry.ring = some ring) :
    ((engine.popTo left caller rest).flushEntry te).Delivering ring := by
  obtain ⟨queue, queueEq⟩ : ∃ queue, queue = (engine.popTo left caller rest).pending te.tag :=
    ⟨_, rfl⟩
  have pendingEq : engine.pending te.tag = te :: queue := by
    rw [@pending_popTo engine left caller te rest entries te.tag, if_pos rfl, queueEq]
  have popped := @popped engine ring left caller te rest entry delivering sound entries found valid
  obtain ⟨slot, slots, rising, bounded⟩ :=
    (delivering.queued te.tag popped.indexed).split pendingEq
  have given : Handed (engine.popTo left caller rest)
    ((engine.popTo left caller rest).flushEntry te) ring te.slot := flushEntry_handed found valid
  obtain ⟨after, afterEq⟩ : ∃ after, after = (engine.popTo left caller rest).flushEntry te :=
    ⟨_, rfl⟩
  rw [← afterEq] at given popped ⊢
  have steady : Shared.Steady engine.shared after.shared := given.steady
  obtain ⟨delivered, handed, stores⟩ := @handOver engine ring (engine.popTo left caller rest) after
    te.slot delivering sound rfl given slot popped.more
  have capacity : (after.obj ring).ring.capacity = (engine.obj ring).ring.capacity :=
    steady.capacity ring
  have pending : after.pending te.tag = queue := by
    rw [queueEq, Engine.pending, given.tso]
    rfl
  refine ⟨delivered, handed ▸ stores, ?_, ?_, ?_, ?_, ?_, ?_⟩
  · rw [handed, steady.popped]
    exact Nat.le_succ_of_le delivering.above
  · rw [popped.ringAt]
    exact fun nowhere => absurd popped.indexed (nowhere te.tag)
  · intro j other read owns none _
    rw [(popped.sole j other read owns).2] at none
    cases none
  · intro j other slot' read owns last
    rw [(popped.sole j other read owns).2] at last
    obtain rfl : te.slot = slot' := Option.some.inj last
    rw [handed, steady.popped, capacity, Nat.add_sub_cancel]
    exact ⟨Nat.lt_succ_of_le delivering.above, slot⟩
  · rw [popped.ringAt]
    intro j owns
    obtain rfl : j = te.tag := sound.registered.distinct j te.tag ring owns popped.indexed
    refine ⟨?_, ?_, ?_⟩ <;> rw [pending]
    · rw [capacity, handed, slots]
    · exact rising
    · rw [handed, steady.committed]
      omega
  · intro j other walks read owns
    obtain ⟨rfl, rfl⟩ := popped.sole j other read owns
    have walks' : engine.pc.Walking te.tag := by
      rw [given.pc] at walks
      rw [place]
      cases caller <;> exact walks
    obtain ⟨limit, stands, upper, climbs⟩ := delivering.walking te.tag entry walks' found valid
    have clock : after.pc.clock = engine.pc.clock := by
      rw [given.pc, place]
      cases caller <;> rfl
    have passed : engine.handed ring + 1 + queue.length =
        engine.handed ring + (te :: queue).length := by
      rw [List.length_cons]
      omega
    rw [pendingEq] at stands climbs
    rw [handed, pending, capacity, steady.committed, clock, passed]
    refine ⟨limit, stands, upper, fun tsoTs ticks => ?_⟩
    obtain ⟨before, climbs⟩ := climbs tsoTs ticks
    exact ⟨fun other member => before other (List.mem_cons_of_mem te member), climbs⟩

theorem returned {left : Nat} {caller : Caller} (delivering : engine.Delivering ring)
    (place : engine.pc = .doFlush left caller) : (engine.flushReturn caller).Delivering ring := by
  have idle (j : Nat) : engine.pc ≠ .drain j := by
    rw [place]
    exact fun drains => by cases drains
  cases caller with
  | full i tsoTs =>
      apply delivering.view
      refine .moved (.log (by simp) (by simp)) rfl (fun _ _ => rfl)
        (fun j drains => absurd drains (idle j)) ?_
      intro j walks
      rw [place]
      exact ⟨walks, rfl⟩
  | final =>
      -- What is left in the buffer is forgotten; the next poll reads it again.
      refine ⟨delivering.delivered, delivering.stores, delivering.above, delivering.unindexed, ?_,
        delivering.advanced, fun i found => ⟨rfl, List.Pairwise.nil, delivering.handed_le⟩,
        fun _ _ walks => walks.elim⟩
      exact fun j other read owns none _ => delivering.rested j other read owns none (idle j)

theorem drain_other {i passed : Nat} {entry : IndexEntry} {owner : RingId}
    (delivering : engine.Delivering ring) (place : engine.pc = .drain i)
    (found : engine.index[i]? = some entry) (valid : entry.ring = some owner)
    (other : owner ≠ ring) :
    (Engine.flushRecord
      (engine.setEntry i { entry with pit := engine.beyond entry owner passed }) owner
      (slotOf (engine.obj owner).ring.capacity passed)).Delivering ring := by
  have away : entry.ring ≠ some ring := by
    rw [valid]
    exact fun same => other (Option.some.inj same)
  have handed := flushRecord_handed
    (engine.setEntry i { entry with pit := engine.beyond entry owner passed }) owner
    (slotOf (engine.obj owner).ring.capacity passed)
  have pc := handed.pc.trans place
  apply delivering.view
  refine .elsewhere (handed.untouched other) found away (flushRecord_index owner _) away ?_ ?_ ?_
  · intro j _
    rw [pending, handed.tso]
    rfl
  · intro j different drains
    exact absurd (Pc.drain.inj (drains.symm.trans place)) different
  · rw [pc]
    intro j different walks
    exact absurd walks different

theorem drain_own {i passed limit : Nat} {entry : IndexEntry} (delivering : engine.Delivering ring)
    (sound : engine.Sound) (place : engine.pc = .drain i)
    (here : engine.AtRecord i entry ring passed limit) (more : passed < limit) :
    (Engine.flushRecord
      (engine.setEntry i { entry with pit := engine.beyond entry ring passed }) ring
      (slotOf (engine.obj ring).ring.capacity passed)).Delivering ring := by
  obtain ⟨empty, settled, -⟩ := sound.tracked.notso (sound.tracked.drains i place)
  have nothing (j : Nat) : engine.pending j = [] := by rw [pending, empty, List.filter_nil]
  have passedEq := (delivering.passed_eq sound (by rw [place]; rfl) here).1
  rw [nothing, List.length_nil, Nat.add_zero] at passedEq
  subst passedEq
  have upper := here.upper
  have at' : engine.ringAt i = some ring := ringAt_eq_some.mpr ⟨entry, here.found, here.valid⟩
  obtain ⟨start, startEq⟩ : ∃ start, start = engine.setEntry i { entry with
    pit := engine.beyond entry ring (engine.handed ring) } := ⟨_, rfl⟩
  have given := flushRecord_handed start ring
    (slotOf (engine.obj ring).ring.capacity (engine.handed ring))
  have sameIndex := @flushRecord_index start ring
    (slotOf (engine.obj ring).ring.capacity (engine.handed ring))
  rw [← startEq]
  obtain ⟨after, afterEq⟩ : ∃ after, after = start.flushRecord ring
    (slotOf (engine.obj ring).ring.capacity (engine.handed ring)) := ⟨_, rfl⟩
  rw [← afterEq] at given sameIndex ⊢
  have index : after.index = engine.index.set i { entry with
      pit := engine.beyond entry ring (engine.handed ring) } := by
    rw [sameIndex, startEq]
    rfl
  have shared : start.shared = engine.shared := by rw [startEq]; rfl
  have steady : Shared.Steady engine.shared after.shared := shared ▸ given.steady
  obtain ⟨delivered, handed, stores⟩ := delivering.handOver sound shared given rfl (by omega)
  have capacity : (after.obj ring).ring.capacity = (engine.obj ring).ring.capacity :=
    steady.capacity ring
  have pending (j : Nat) : after.pending j = [] := by
    rw [Engine.pending, given.tso, startEq]
    exact nothing j
  have pc : after.pc = .drain i := by
    rw [given.pc, startEq]
    exact place
  have inside := (List.getElem?_eq_some_iff.mp here.found).1
  have sole {j : Nat} {other : IndexEntry} (read : after.index[j]? = some other)
      (owns : other.ring = some ring) :
      j = i ∧ other = { entry with pit := engine.beyond entry ring (engine.handed ring) } := by
    rw [index] at read
    obtain ⟨old, oldRead, ringEq, -⟩ := Tracked.setPit_read here.found read
    have same : j = i := sound.registered.distinct j i ring
      (ringAt_eq_some.mpr ⟨old, oldRead, ringEq.symm.trans owns⟩) at'
    rw [same, List.getElem?_set_self inside] at read
    exact ⟨same, (Option.some.inj read).symm⟩
  refine ⟨delivered, handed ▸ stores, ?_, ?_, ?_, ?_, ?_, ?_⟩
  · rw [handed, steady.popped]
    exact Nat.le_succ_of_le delivering.above
  · intro nowhere
    refine absurd (ringAt_eq_some.mpr ⟨{ entry with
      pit := engine.beyond entry ring (engine.handed ring) }, ?_, here.valid⟩) (nowhere i)
    rw [index, List.getElem?_set_self inside]
  · intro j other read owns _ elsewhere
    rw [pc, (sole read owns).1] at elsewhere
    exact absurd rfl elsewhere
  · intro j other slot read owns last
    rw [(sole read owns).2] at last
    change entry.lastrec = some slot at last
    rw [settled entry (List.mem_of_getElem? here.found)] at last
    cases last
  · intro j _
    refine ⟨?_, ?_, ?_⟩ <;> rw [pending]
    · rfl
    · exact List.Pairwise.nil
    · rw [handed, steady.committed, List.length_nil]
      omega
  · intro j other _ read owns
    obtain ⟨rfl, rfl⟩ := sole read owns
    rw [handed, pending, capacity, steady.committed, pc]
    refine ⟨limit, here.stands.advance (sound.tracked.spanned ring).isMask more, upper, ?_⟩
    intro tsoTs ticks
    cases ticks

theorem commit_other {i : Nat} {entry : IndexEntry} {owner : RingId} {pit : PopIterator} {pc : Pc}
    (delivering : engine.Delivering ring)
    (found : engine.index[i]? = some entry) (valid : entry.ring = some owner)
    (other : owner ≠ ring) (drains : ∀ j, j ≠ i → engine.pc ≠ .drain j)
    (still : ∀ j, ¬ pc.Walking j) :
    ((engine.commitPit i entry owner pit).goto pc).Delivering ring := by
  have away : entry.ring ≠ some ring := by
    rw [valid]
    exact fun same => other (Option.some.inj same)
  apply delivering.view
  refine .elsewhere (.of_same ?_ rfl rfl) found away rfl away (fun _ _ => rfl) ?_ ?_
  · exact congrArg (·.ring) (Shared.setRing_elsewhere _ other.symm)
  · exact fun j different place => absurd place (drains j different)
  · exact fun j _ walks => absurd walks (still j)

theorem commit_own {i : Nat} {entry : IndexEntry} {pit : PopIterator} {pc : Pc}
    (delivering : engine.Delivering ring) (sound : engine.Sound)
    (found : engine.index[i]? = some entry) (valid : entry.ring = some ring)
    (empty : engine.tso.entries = [])
    (head : pit.head = slotOf (engine.obj ring).ring.capacity
      (engine.handed ring + (engine.obj ring).ring.capacity.toNat))
    (still : ∀ j, ¬ pc.Walking j) :
    ((engine.commitPit i entry ring pit).goto pc).Delivering ring := by
  obtain ⟨popped, -⟩ := @Tracked.commitPit_spanned engine i entry ring pit (engine.handed ring)
    sound.tracked head delivering.above delivering.handed_le
  obtain ⟨after, afterEq⟩ : ∃ after, after = (engine.commitPit i entry ring pit).goto pc := ⟨_, rfl⟩
  rw [← afterEq]
  have consumed : after.shared.popped ring = engine.handed ring := by
    rw [afterEq]
    exact popped
  have ringEq : (after.obj ring).ring = (engine.obj ring).ring.commitHead pit.head := by
    rw [afterEq]
    change ((engine.shared.setRing ring _).rings ring).ring = _
    rw [Shared.setRing_rings, if_pos rfl]
    rfl
  have handed : after.handed ring = engine.handed ring := by rw [afterEq]; rfl
  have committed : after.shared.committed ring = engine.shared.committed ring := by
    rw [afterEq]
    rfl
  have index : after.index = engine.index.set i { entry with pit, lastrec := none } := by
    rw [afterEq]
    rfl
  have at' : engine.ringAt i = some ring := ringAt_eq_some.mpr ⟨entry, found, valid⟩
  have ringAt : after.ringAt = engine.ringAt := by
    rw [afterEq]
    exact ringAt_setEntry_same found { entry with pit, lastrec := none } rfl
  have nothing (j : Nat) : after.pending j = [] := by
    rw [Engine.pending, afterEq]
    change engine.tso.entries.filter _ = []
    rw [empty, List.filter_nil]
  have inside := (List.getElem?_eq_some_iff.mp found).1
  refine ⟨?_, ?_, ?_, ?_, ?_, ?_, ?_, ?_⟩
  · rw [committed, show after.shared.flushed ring = engine.shared.flushed ring by rw [afterEq]; rfl]
    exact delivering.delivered
  · rw [handed, committed, ringEq]
    exact delivering.stores
  · rw [handed, consumed]
  · exact fun _ => consumed.trans handed.symm
  · exact fun _ _ _ _ _ _ => consumed.trans handed.symm
  · intro j other slot read owns last
    have same : j = i := sound.registered.distinct j i ring
      (ringAt ▸ ringAt_eq_some.mpr ⟨other, read, owns⟩) at'
    rw [same, index, List.getElem?_set_self inside] at read
    rw [← Option.some.inj read] at last
    cases last
  · intro j _
    refine ⟨?_, ?_, ?_⟩ <;> rw [nothing]
    · rfl
    · exact List.Pairwise.nil
    · rw [handed, committed]
      exact delivering.handed_le
  · intro j other walks
    rw [afterEq] at walks
    exact absurd walks (still j)

theorem rebuilt (std : StdSort) (delivering : engine.Delivering ring) (sound : engine.Sound)
    (place : engine.pc = .rebuild) :
    ((engine.rebuildRingIndex std).goto (.scan 0)).Delivering ring := by
  have consumed : engine.shared.popped ring = engine.handed ring := by
    by_cases nowhere : ∀ i, engine.ringAt i ≠ some ring
    · exact delivering.unindexed nowhere
    · obtain ⟨i, at'⟩ : ∃ i, engine.ringAt i = some ring := by
        by_contra none
        exact nowhere fun i at' => none ⟨i, at'⟩
      obtain ⟨entry, found, valid⟩ := ringAt_eq_some.mp at'
      apply delivering.rested i entry found valid
      · by_contra pending
        have scanned := sound.tracked.recScanned i entry found pending
        rw [place] at scanned
        exact scanned
      · rw [place]
        exact fun drains => by cases drains
  have empty : engine.tso.entries = [] := sound.tracked.buffered (by rw [place]; rfl)
  have logged : Shared.Untouched ring engine.shared (engine.shared.log .indexed) :=
    .log (by simp) (by simp)
  have handed : ((engine.rebuildRingIndex std).goto (.scan 0)).handed ring = engine.handed ring :=
    congrArg List.length logged.flushed
  have after : engine.shared.popped ring =
      ((engine.rebuildRingIndex std).goto (.scan 0)).handed ring := consumed.trans handed.symm
  refine ⟨?_, ?_, ?_, ?_, ?_, ?_, ?_, ?_⟩
  · exact logged.flushed ▸ delivering.delivered.trans logged.committed
  · rw [handed]
    exact logged.stores _ delivering.above delivering.stores
  · exact Nat.le_of_eq (logged.popped.trans after)
  · exact fun _ => logged.popped.trans after
  · exact fun _ _ _ _ _ _ => logged.popped.trans after
  · intro i entry slot read _ last
    obtain ⟨owner, -, rfl⟩ := mem_rebuild.mp (List.mem_of_getElem? read)
    cases last
  · intro i _
    have nothing : ((engine.rebuildRingIndex std).goto (.scan 0)).pending i = [] := by
      change engine.tso.entries.filter _ = []
      rw [empty, List.filter_nil]
    refine ⟨?_, ?_, ?_⟩ <;> rw [nothing]
    · rfl
    · exact List.Pairwise.nil
    · rw [handed]
      exact delivering.handed_le.trans logged.committed.length_le
  · exact fun _ _ walks => walks.elim

theorem reaped {i : Nat} {entry : IndexEntry} {owner : RingId} (delivering : engine.Delivering ring)
    (sound : engine.Sound) (place : engine.pc = .kill i) (found : engine.index[i]? = some entry)
    (valid : entry.ring = some owner) : (engine.killOrphan i true).Delivering ring := by
  have idle (j : Nat) : engine.pc ≠ .drain j := by
    rw [place]
    exact fun drains => by cases drains
  have at' : engine.ringAt i = some owner := ringAt_eq_some.mpr ⟨entry, found, valid⟩
  have logged : Shared.Untouched ring engine.shared (engine.shared.log (.reaped owner)) :=
    .log (by simp) (by simp)
  rw [killOrphan_eq found valid]
  by_cases other : owner = ring
  · subst other
    have consumed := delivering.rested i entry found valid
      ((sound.tracked.clean i place).2 entry found) (idle i)
    have away (j : Nat) : (engine.setEntry i { entry with ring := none, pit := ⟨0, 0⟩ }).ringAt j ≠
        some owner := by
      rw [ringAt_setEntry found { entry with ring := none, pit := ⟨0, 0⟩ } rfl j]
      split
      · exact fun same => by cases same
      · rename_i different
        exact fun owns => different (sound.registered.distinct j i owner owns at')
    have gone {j : Nat} {other : IndexEntry}
        (read : (engine.index.set i { entry with ring := none, pit := ⟨0, 0⟩ })[j]? = some other)
        (owns : other.ring = some owner) : False :=
      away j (ringAt_eq_some.mpr ⟨other, read, owns⟩)
    have handed : (engine.log (.reaped owner)).handed owner = engine.handed owner :=
      congrArg List.length logged.flushed
    refine ⟨?_, ?_, ?_, ?_, ?_, ?_, ?_, ?_⟩
    · exact logged.flushed ▸ delivering.delivered.trans logged.committed
    · exact (handed ▸ logged.stores _ delivering.above delivering.stores :
        (engine.obj owner).ring.Stores _ ((engine.log (.reaped owner)).handed owner))
    · exact (handed ▸ logged.popped.trans_le delivering.above :
        _ ≤ (engine.log (.reaped owner)).handed owner)
    · intro _
      exact (logged.popped.trans consumed).trans handed.symm
    · exact fun j other read owns => (gone read owns).elim
    · exact fun j other slot read owns => (gone read owns).elim
    · exact fun j owns => absurd owns (away j)
    · exact fun j other walks => walks.elim
  · have apart : entry.ring ≠ some ring := by
      rw [valid]
      exact fun same => other (Option.some.inj same)
    apply delivering.view
    exact .elsewhere ⟨logged.flushed, logged.committed, logged.popped, logged.capacity,
      logged.stores⟩ found apart rfl (fun same => by cases same) (fun _ _ => rfl)
      (fun j _ drains => absurd drains (idle j)) (fun _ _ walks => walks.elim)

theorem step {std : StdSort} {next : Engine} (delivering : engine.Delivering ring)
    (sound : engine.Sound)
    (climbing : Climbing (engine.obj ring).ring.capacity (engine.shared.committed ring))
    (shape : engine.EngineStep std next) : next.Delivering ring := by
  have apart {pc : Pc} (place : engine.pc = pc) (different : ∀ i, pc ≠ .drain i) (i : Nat) :
      engine.pc ≠ .drain i := place ▸ different i
  cases shape with
  | polled place =>
      apply delivering.view
      refine .moved (.log (by simp) (by simp)) rfl (fun _ _ => rfl)
        (fun i drains => absurd drains (apart place (by simp) i)) ?_
      simp only [processRings]
      intro i walks
      split at walks <;> exact walks.elim
  | unlocked place | skipped place | exhausted place | walked place | emptied place
  | untouched place | settled place | finished place =>
      exact delivering.view (.goes (apart place (by simp)) fun _ walks => walks)
  | passedOver place =>
      refine delivering.view (.goes (fun i drains => ?_) fun _ walks => walks)
      rw [drains] at place
      exact place
  | rebuilt place => exact delivering.rebuilt std sound place
  | flushing place => exact delivering.flushing std place
  | @reset i entry owner place found valid =>
      have goes : (if engine.tsoDisabled then Pc.drain i else .walk i 0) = .drain i ∨
          (if engine.tsoDisabled then Pc.drain i else .walk i 0) = .walk i 0 := by
        split
        · exact .inl rfl
        · exact .inr rfl
      by_cases other : owner = ring
      · subst other
        exact delivering.reset_own sound climbing place found valid goes
      · exact delivering.reset_other place found valid other goes
  | @pushed i tsoTs entry owner passed limit place here more _ =>
      by_cases other : owner = ring
      · subst other
        exact delivering.push_own sound place here more
      · exact delivering.push_other place here.found here.valid other
  | @filled i tsoTs entry owner passed limit place here more _ =>
      by_cases other : owner = ring
      · subst other
        exact (delivering.push_own sound place here more).flushFull std rfl
      · exact (delivering.push_other place here.found here.valid other).flushFull std rfl
  | @popped left caller te rest entry owner place entries found valid _ =>
      by_cases other : owner = ring
      · subst other
        exact delivering.pop_own sound place entries found valid
      · exact delivering.pop_other place entries found valid other
  | returned place _ => exact delivering.returned place
  | @drained i entry owner passed limit place here more =>
      by_cases other : owner = ring
      · subst other
        exact delivering.drain_own sound place here more
      · exact delivering.drain_other place here.found here.valid other
  | @drainCommitted i entry owner passed place here =>
      by_cases other : owner = ring
      · subst other
        have empty := (sound.tracked.notso (sound.tracked.drains i place)).1
        have passedEq := (delivering.passed_eq sound (by rw [place]; rfl) here).1
        rw [pending, empty, List.filter_nil, List.length_nil, Nat.add_zero] at passedEq
        refine delivering.commit_own sound here.found here.valid empty ?_ fun _ walks => walks
        rw [← passedEq]
        exact here.stands.head
      · refine delivering.commit_other here.found here.valid other ?_ fun _ walks => walks
        exact fun j different drains => different (Pc.drain.inj (drains.symm.trans place))
  | orphaned place _ _ =>
      apply delivering.view
      exact .moved (.log (by simp) (by simp)) rfl (fun _ _ => rfl)
        (fun i drains => absurd drains (apart place (by simp) i)) fun _ walks => walks.elim
  | reaped place found valid => exact delivering.reaped sound place found valid
  | @released i owner place =>
      apply delivering.view
      refine .moved (.of_same (Shared.setRing_ring (by rfl) ring) rfl rfl) rfl (fun _ _ => rfl)
        (fun i drains => absurd drains (apart place (by simp) i)) fun _ walks => walks.elim
  | @committed i entry owner slot place found last valid _ =>
      by_cases other : owner = ring
      · subst other
        obtain ⟨behind, slotEq⟩ := delivering.advanced i entry slot found valid last
        refine delivering.commit_own sound found valid
          (sound.tracked.buffered (by rw [place]; rfl)) ?_ fun _ walks => walks
        have position : engine.handed owner = engine.handed owner - 1 + 1 := by omega
        rw [position]
        exact slotEq.trans (slotOf_last (sound.tracked.spanned owner).isMask _).symm
      · exact delivering.commit_other found valid other
          (fun j _ => apart place (by simp) j) fun _ walks => walks

end Delivering

/-- A step either concerns no record or hands one over, of the ring in
question the one that comes next. -/
theorem EngineStep.aside_or_flushes {std : StdSort} {next : Engine} {ring : RingId}
    (step : engine.EngineStep std next) (sound : engine.Sound)
    (delivering : engine.Delivering ring) :
    (∃ events, next.shared.trace = engine.shared.trace ++ events ∧ ∀ event ∈ events, event.aside) ∨
    ∃ owner slot report, Flushes engine next owner slot report ∧
      (∀ event ∈ report, ∃ count, event = .reported owner count) ∧
      (owner = ring → slot = slotOf (engine.obj ring).ring.capacity (engine.handed ring) ∧
        engine.handed ring < (engine.shared.committed ring).length) := by
  cases step with
  | polled | rebuilt | reset | pushed | orphaned =>
      exact .inl ⟨_, rfl, List.forall_mem_singleton.mpr rfl⟩
  | unlocked | skipped | exhausted | flushing | walked | drainCommitted | passedOver | emptied
  | released | committed | untouched | settled | finished =>
      exact .inl ⟨[], (List.append_nil _).symm, List.forall_mem_nil _⟩
  | @filled i tsoTs entry owner passed limit =>
      obtain ⟨events, trace, aside, -⟩ := markTsoFull_aside
        (engine.pushRecord i entry (engine.beyond entry owner passed)
          (engine.entryFor i tsoTs owner passed))
      refine .inl ⟨.tsoPush engine.tso.tail :: events, trace.trans ?_, ?_⟩
      · change engine.shared.trace ++ [_] ++ events = _
        rw [List.append_assoc, List.singleton_append]
      · exact List.forall_mem_cons.mpr ⟨rfl, aside⟩
  | @popped left caller te rest entry owner _ entries found valid _ =>
      refine .inr ⟨owner, te.slot, _,
        @flushEntry_flushes (engine.popTo left caller rest) te entry owner found valid, ?_, ?_⟩
      · rw [dropReport]
        split
        · exact List.forall_mem_nil _
        · exact List.forall_mem_singleton.mpr ⟨_, rfl⟩
      · rintro rfl
        have pendingEq := @Delivering.pending_popTo engine left caller te rest entries te.tag
        rw [if_pos rfl] at pendingEq
        obtain ⟨slot, -, -, bounded⟩ := (delivering.queued te.tag
          (ringAt_eq_some.mpr ⟨entry, found, valid⟩)).split pendingEq
        exact ⟨slot, by omega⟩
  | @returned _ caller =>
      cases caller with
      | full => exact .inl ⟨_, rfl, List.forall_mem_singleton.mpr rfl⟩
      | final => exact .inl ⟨[], (List.append_nil _).symm, List.forall_mem_nil _⟩
  | @drained i entry owner passed limit place here more =>
      obtain ⟨notes, injected, trace⟩ := flushRecord_trace (engine.setEntry i { entry with
        pit := engine.beyond entry owner passed }) owner
          (slotOf (engine.obj owner).ring.capacity passed)
      refine .inr ⟨owner, slotOf (engine.obj owner).ring.capacity passed, [],
        ⟨[], notes, List.forall_mem_nil _, injected, ?_⟩, List.forall_mem_nil _, ?_⟩
      · rw [List.append_nil, List.append_nil]
        exact trace
      · rintro rfl
        have empty := (sound.tracked.notso (sound.tracked.drains i place)).1
        have passedEq := (delivering.passed_eq sound (by rw [place]; rfl) here).1
        rw [pending, empty, List.filter_nil, List.length_nil, Nat.add_zero] at passedEq
        have upper := here.upper
        exact ⟨by rw [passedEq], by omega⟩
  | reaped _ found valid =>
      rw [killOrphan_eq found valid]
      exact .inl ⟨_, rfl, List.forall_mem_singleton.mpr rfl⟩

end Engine

end Hogl.Polling
