import Mathlib.Algebra.Order.BigOperators.Group.Finset
import Hogl.Engine.TwoPolls
import Hogl.Engine.Progress

namespace Hogl.Polling

open Hogl.Data Hogl.Ring

/-! # Polls that nobody posts into

When no client is left, a poll reads every ring to its end, and all that is
owed to the output is what the TSO buffer holds.  One poll leaves no more than
the reserve of the buffer behind, and the next poll, which asks for what was
left, leaves nothing.
-/

/-- The ring of index entry `k` has been read to its end in the running poll. -/
def Pc.Completed : Pc → Nat → Prop
  | .scan n, k | .walk n _, k | .drain n, k | .doFlush _ (.full n _), k => k < n
  | .orphan n, k | .empty n, k | .kill n, k | .release n _, k => k ≤ n
  | .doFlush _ .final, _ => True
  | _, _ => False

namespace Engine

variable {engine next : Engine} {std : StdSort}

/-- How many records of the ring were handed over or wait in the TSO buffer
under tag `k`. -/
def taken (engine : Engine) (k : Nat) (ring : RingId) : Nat :=
  engine.handed ring + (engine.pending k).length

/-- How many records of the ring have still to be handed over. -/
def owed (engine : Engine) (ring : RingId) : Nat :=
  (engine.shared.committed ring).length - engine.handed ring

/-- The same for all registered rings. -/
def backlog (engine : Engine) : Nat := ∑ ring ∈ engine.shared.ringMap.toFinset, engine.owed ring

/-- Nothing is committed while the poll runs: an iterator reads its ring to the end. -/
structure Caught (engine : Engine) : Prop where
  completed : ∀ k ring, engine.pc.Completed k → engine.ringAt k = some ring →
    engine.taken k ring = (engine.shared.committed ring).length
  walking : ∀ (k : Nat) (entry : IndexEntry) (ring : RingId), engine.pc.Walking k →
    engine.index[k]? = some entry → entry.ring = some ring →
    entry.pit.tail = (engine.obj ring).ring.tail

/-- An index entry without a ring is there only until the index is rebuilt. -/
def Whole (engine : Engine) : Prop :=
  engine.shared.dirty = false → none ∉ engine.index.map (·.ring)

/-- No client holds a registered ring or is about to announce one. -/
structure Deserted (engine : Engine) : Prop where
  sound : engine.Sound
  clear : ∀ ring, Clear ring engine
  delivering : ∀ ring, engine.Delivering ring
  alone : ∀ ring ∈ engine.shared.ringMap, (engine.obj ring).clients = 0
  unmarked : engine.shared.unmarked = []
  whole : engine.Whole

/-! ## What is in the buffer is owed -/

theorem taken_le (deserted : engine.Deserted) {k : Nat} {ring : RingId}
    (indexed : engine.ringAt k = some ring) :
    engine.taken k ring ≤ (engine.shared.committed ring).length :=
  ((deserted.delivering ring).queued k indexed).bounded

/-- Every buffered record belongs to one registered ring. -/
theorem size_eq (registered : engine.Registered) (tracked : engine.Tracked) :
    engine.tso.size = ∑ ring ∈ engine.shared.ringMap.toFinset,
      (engine.tso.entries.filter fun te => engine.ringAt te.tag = some ring).length := by
  have total := @Merge.length_eq_sum _ _ _ (engine.shared.ringMap.toFinset.image some)
    (engine.tso.entries.map fun te => (engine.ringAt te.tag, te)) (by
      intro item member
      obtain ⟨te, listed, rfl⟩ := List.mem_map.mp member
      obtain ⟨ring, tagged, -⟩ := tracked.tagged te listed
      rw [tagged]
      exact Finset.mem_image_of_mem _ (List.mem_toFinset.mpr (registered.mapped te.tag ring tagged)))
  rw [List.length_map, Finset.sum_image fun _ _ _ _ same => Option.some.inj same] at total
  refine total.trans (Finset.sum_congr rfl fun ring _ => ?_)
  rw [Merge.lane, List.length_map, List.filter_map, List.length_map]
  rfl

theorem filter_tagged (registered : engine.Registered) {k : Nat} {ring : RingId}
    (indexed : engine.ringAt k = some ring) :
    engine.tso.entries.filter (fun te => engine.ringAt te.tag = some ring) = engine.pending k := by
  refine List.filter_congr fun te _ => ?_
  rw [Bool.eq_iff_iff, decide_eq_true_eq, beq_iff_eq]
  constructor
  · exact fun same => registered.distinct _ _ _ same indexed
  · rintro rfl
    exact indexed

theorem size_le_backlog (deserted : engine.Deserted) : engine.tso.size ≤ engine.backlog := by
  have registered := deserted.sound.registered
  rw [size_eq registered deserted.sound.tracked, backlog]
  refine Finset.sum_le_sum fun ring _ => ?_
  by_cases indexed : ∃ k, engine.ringAt k = some ring
  · obtain ⟨k, indexed⟩ := indexed
    have bound := taken_le deserted indexed
    rw [filter_tagged registered indexed, owed]
    rw [taken] at bound
    omega
  · rw [List.filter_eq_nil_iff.mpr fun te _ same => indexed ⟨te.tag, of_decide_eq_true same⟩]
    exact Nat.zero_le _

/-- Once every registered ring has been read, all that is owed is in the buffer. -/
theorem backlog_le_size (registered : engine.Registered) (tracked : engine.Tracked)
    (covered : ∀ ring ∈ engine.shared.ringMap, ∃ k, engine.ringAt k = some ring ∧
      engine.taken k ring = (engine.shared.committed ring).length) :
    engine.backlog ≤ engine.tso.size := by
  rw [size_eq registered tracked, backlog]
  refine Finset.sum_le_sum fun ring member => ?_
  obtain ⟨k, indexed, read⟩ := covered ring (List.mem_toFinset.mp member)
  rw [filter_tagged registered indexed, owed, ← read, taken]
  omega

theorem owed_of_backlog (none : engine.backlog = 0) {ring : RingId}
    (member : ring ∈ engine.shared.ringMap) : engine.owed ring = 0 :=
  Finset.sum_eq_zero_iff.mp none ring (List.mem_toFinset.mpr member)

/-! ## A poll that nobody posts into -/

theorem pending_perm {before after : Engine} {k : Nat} {ring : RingId}
    (perm : after.tso.entries.Perm before.tso.entries)
    (flushed : after.shared.flushed ring = before.shared.flushed ring) :
    after.taken k ring = before.taken k ring := by
  rw [taken, taken, handed, flushed, handed, pending, pending, (perm.filter _).length_eq]

theorem handed_log {event : Event} {ring : RingId} (other : ∀ record, event ≠ .flushed ring record) :
    (engine.log event).handed ring = engine.handed ring :=
  congrArg List.length (Shared.flushed_log ring other)

namespace Caught

theorem opened (caught : engine.pc = .scan 0) : engine.Caught := by
  refine ⟨fun k ring completed => ?_, fun k entry ring walks => ?_⟩
  · rw [caught] at completed
    exact absurd completed (Nat.not_lt_zero k)
  · rw [caught] at walks
    exact walks.elim

theorem closed (still : ∀ k, ¬ engine.pc.Completed k) (rests : ∀ k, ¬ engine.pc.Walking k) :
    engine.Caught :=
  ⟨fun k _ completed => absurd completed (still k), fun k _ _ walks => absurd walks (rests k)⟩

/-- A step that reads no record and hands none over. -/
theorem quiet (caught : engine.Caught) (shape : engine.EngineStep std next)
    (index : next.index = engine.index)
    (taken : ∀ k ring, next.taken k ring = engine.taken k ring)
    (completed : ∀ k ring, next.pc.Completed k → engine.ringAt k = some ring →
      engine.pc.Completed k ∨ engine.taken k ring = (engine.shared.committed ring).length)
    (walking : ∀ k, next.pc.Walking k → engine.pc.Walking k) : next.Caught := by
  refine ⟨fun k ring done indexed => ?_, fun k entry ring walks found valid => ?_⟩
  · have before : engine.ringAt k = some ring := by rwa [ringAt, index] at indexed
    rw [taken, shape.committed_eq]
    exact (completed k ring done before).elim (fun earlier => caught.completed k ring earlier before) id
  · rw [index] at found
    rw [(shape.objs ring).tail]
    exact caught.walking k entry ring (walking k walks) found valid

/-- A step that rewrites one index entry. -/
theorem rewritten {i : Nat} {entry : IndexEntry} (caught : engine.Caught)
    (shape : engine.EngineStep std next) (updated : IndexEntry) (found : engine.index[i]? = some entry)
    (same : updated.ring = entry.ring) (tail : updated.pit.tail = entry.pit.tail)
    (index : next.index = engine.index.set i updated)
    (completed : ∀ k ring, next.pc.Completed k → engine.ringAt k = some ring →
      next.taken k ring = (engine.shared.committed ring).length)
    (walking : ∀ k, next.pc.Walking k → engine.pc.Walking k) : next.Caught := by
  have ringAt : next.ringAt = engine.ringAt := by
    rw [← ringAt_setEntry_same found updated same]
    funext k
    rw [Engine.ringAt, index, Engine.ringAt, setEntry]
  have inside := (List.getElem?_eq_some_iff.mp found).1
  refine ⟨fun k ring done indexed => ?_, fun k other ring walks read valid => ?_⟩
  · rw [shape.committed_eq]
    exact completed k ring done (ringAt ▸ indexed)
  · rw [(shape.objs ring).tail]
    by_cases here : i = k
    · subst here
      rw [index, List.getElem?_set_self inside] at read
      obtain rfl := Option.some.inj read
      rw [tail]
      exact caught.walking i entry ring (walking i walks) found (same.symm.trans valid)
    · rw [index, List.getElem?_set_ne here] at read
      exact caught.walking k other ring (walking k walks) read valid

/-- The iterator of a ring has come to its end: nothing was committed since it was reset. -/
theorem finished {i passed : Nat} {entry : IndexEntry} {ring : RingId} (caught : engine.Caught)
    (deserted : engine.Deserted) (walks : engine.pc.Walking i)
    (here : engine.AtRecord i entry ring passed passed) :
    engine.taken i ring = (engine.shared.committed ring).length := by
  have spans := deserted.sound.tracked.spanned ring
  have passedEq := ((deserted.delivering ring).passed_eq deserted.sound walks here).1
  have tail := caught.walking i entry ring walks here.found here.valid
  have upper := here.upper
  have lower := here.lower
  have bounded := spans.bounded
  rw [taken, ← passedEq]
  rw [here.stands.tail] at tail
  exact slotOf_injective spans.isMask (tail.trans spans.tail) (by rw [slotCount]; omega)
    (by rw [slotCount]; omega)

theorem pushed {i passed : Nat} {tsoTs : UInt64} {entry : IndexEntry} {ring : RingId} {k : Nat}
    (caught : engine.Caught) (place : engine.pc = .walk i tsoTs) (before : k < i)
    {other : RingId} (indexed : engine.ringAt k = some other) :
    (engine.pushRecord i entry (engine.beyond entry ring passed)
      (engine.entryFor i tsoTs ring passed)).taken k other =
        (engine.shared.committed other).length := by
  have handed : (engine.pushRecord i entry (engine.beyond entry ring passed)
      (engine.entryFor i tsoTs ring passed)).handed other = engine.handed other :=
    @handed_log engine (.tsoPush engine.tso.tail) other (by simp)
  have pending := @Delivering.pending_push engine i k entry (engine.beyond entry ring passed)
    (engine.entryFor i tsoTs ring passed) rfl
  rw [taken, handed, pending, if_neg (Nat.ne_of_lt before)]
  exact caught.completed k other (by rw [place]; exact before) indexed

theorem flushFull (std : StdSort) (i : Nat) (tsoTs : UInt64) (k : Nat) (ring : RingId) :
    (engine.flushFullTso std i tsoTs).taken k ring = engine.taken k ring := by
  refine pending_perm (std.perm Tsobuf.less engine.tso.entries) ?_
  change engine.markTsoFull.shared.flushed ring = _
  obtain ⟨events, trace, aside, -⟩ := markTsoFull_aside engine
  rw [Shared.flushed, trace, flushedTo_append, flushedTo_aside aside, List.append_nil, Shared.flushed]

/-- A record moves from the buffer to the output. -/
theorem popped {left : Nat} {caller : Caller} {te : TsoEntry} {rest : List TsoEntry}
    {entry : IndexEntry} {owner : RingId} (deserted : engine.Deserted)
    (entries : engine.tso.entries = te :: rest) (found : engine.index[te.tag]? = some entry)
    (valid : entry.ring = some owner) {k : Nat} {ring : RingId}
    (indexed : engine.ringAt k = some ring) :
    ((engine.popTo left caller rest).flushEntry te).taken k ring = engine.taken k ring := by
  have given : Handed (engine.popTo left caller rest)
    ((engine.popTo left caller rest).flushEntry te) owner te.slot := flushEntry_handed found valid
  have pending := @Delivering.pending_popTo engine left caller te rest entries k
  have after : ((engine.popTo left caller rest).flushEntry te).pending k =
      (engine.popTo left caller rest).pending k := by
    rw [Engine.pending, given.tso, Engine.pending]
  have at' : engine.ringAt te.tag = some owner := ringAt_eq_some.mpr ⟨entry, found, valid⟩
  rw [taken, taken, after, pending]
  by_cases same : owner = ring
  · subst same
    have here := deserted.sound.registered.distinct _ _ _ at' indexed
    have more := (@Delivering.popped engine owner left caller te rest entry
      (deserted.delivering owner) deserted.sound entries found valid).handed
    rw [more, if_pos here, List.length_cons]
    omega
  · have apart : te.tag ≠ k := by
      rintro rfl
      exact same (Option.some.inj (at'.symm.trans indexed))
    rw [if_neg apart, handed, given.flushed_other (Ne.symm same), handed]
    rfl

theorem step (caught : engine.Caught) (deserted : engine.Deserted)
    (shape : engine.EngineStep std next) : next.Caught := by
  have taken_log (event : Event) (other : ∀ ring record, event ≠ .flushed ring record) (k : Nat)
      (ring : RingId) : (engine.log event).taken k ring = engine.taken k ring :=
    pending_perm (.refl _) (Shared.flushed_log ring (other ring))
  have whole := shape
  cases shape with
  | polled place =>
      have next : engine.processRings.pc = .rebuild ∨ engine.processRings.pc = .scan 0 := by
        simp only [processRings]
        split
        · exact .inl rfl
        · exact .inr rfl
      rcases next with next | next
      · exact .closed (fun k done => by rwa [next] at done) fun k walks => by rwa [next] at walks
      · exact .opened next
  | unlocked place | rebuilt place => exact .opened rfl
  | @skipped i entry place found invalid =>
      refine caught.quiet whole rfl (fun _ _ => rfl) (fun k ring done indexed => .inl ?_)
        fun _ walks => walks.elim
      have different : k ≠ i := by
        rintro rfl
        rw [ringAt, found, Option.bind_some, invalid] at indexed
        cases indexed
      rw [place]
      exact Nat.lt_of_le_of_ne (Nat.lt_succ_iff.mp done) different
  | exhausted place | committed place | untouched place | settled place | finished place =>
      exact .closed (fun _ => id) fun _ => id
  | @flushing i place past enabled =>
      refine caught.quiet whole rfl (fun k ring => pending_perm (flushTso_entries std) rfl)
        (fun k ring _ indexed => .inl ?_) fun _ walks => walks.elim
      obtain ⟨entry, found, -⟩ := ringAt_eq_some.mp indexed
      rw [place]
      exact (List.getElem?_eq_some_iff.mp found).1.trans_le (List.getElem?_eq_none_iff.mp past)
  | @reset i entry ring place found valid =>
      have inside := (List.getElem?_eq_some_iff.mp found).1
      have ringAt := ringAt_setEntry_same found { entry with pit := .reset (engine.obj ring).ring } rfl
      have goes : (if engine.tsoDisabled then Pc.drain i else .walk i 0) = .drain i ∨
          (if engine.tsoDisabled then Pc.drain i else .walk i 0) = .walk i 0 := by
        split
        · exact .inl rfl
        · exact .inr rfl
      refine ⟨fun k other done indexed => ?_, fun k other owner walks read owns => ?_⟩
      · have before : k < i := by rcases goes with at' | at' <;> rwa [goto, at'] at done
        rw [whole.committed_eq]
        exact (taken_log _ (by simp) k other).trans (caught.completed k other (by rwa [place])
          ((congrFun ringAt k).symm.trans indexed))
      · obtain rfl : k = i := by rcases goes with at' | at' <;> rwa [goto, at'] at walks
        obtain rfl : { entry with pit := .reset (engine.obj ring).ring } = other :=
          Option.some.inj ((List.getElem?_set_self inside).symm.trans read)
        obtain rfl : ring = owner := Option.some.inj (valid.symm.trans owns)
        rfl
  | @walked i tsoTs entry ring passed place here =>
      refine caught.quiet whole rfl (fun _ _ => rfl) (fun k other done indexed => ?_)
        fun _ walks => walks.elim
      rcases Nat.lt_or_eq_of_le done with less | rfl
      · exact .inl (by rwa [place])
      · obtain rfl : ring = other := Option.some.inj
          ((ringAt_eq_some.mpr ⟨entry, here.found, here.valid⟩).symm.trans indexed)
        exact .inr (caught.finished deserted (by rw [place]; rfl) here)
  | @pushed i tsoTs entry ring passed limit place here more room =>
      exact caught.rewritten whole { entry with pit := engine.beyond entry ring passed } here.found
        rfl rfl rfl (fun k other done indexed => caught.pushed place done indexed)
        fun k walks => by rwa [place]
  | @filled i tsoTs entry ring passed limit place here more full =>
      refine caught.rewritten whole { entry with pit := engine.beyond entry ring passed } here.found
        rfl rfl (markTsoFull_index _) (fun k other done indexed => ?_) fun k walks => by rwa [place]
      rw [flushFull]
      exact caught.pushed place done indexed
  | @popped left caller te rest entry ring place entries found valid within =>
      have given : Handed (engine.popTo left caller rest)
        ((engine.popTo left caller rest).flushEntry te) ring te.slot := flushEntry_handed found valid
      have index := @flushEntry_index (engine.popTo left caller rest) te entry ring found valid
      have pc : ((engine.popTo left caller rest).flushEntry te).pc = .doFlush left caller := given.pc
      refine caught.rewritten whole _ found ?_ ?_ index (fun k other done indexed => ?_)
        fun k walks => ?_
      · rfl
      · rfl
      · rw [popped deserted entries found valid indexed]
        refine caught.completed k other ?_ indexed
        rw [pc] at done
        rw [place]
        cases caller <;> exact done
      · rw [pc] at walks
        rw [place]
        cases caller <;> exact walks
  | @returned left caller place past =>
      cases caller with
      | full i tsoTs =>
          refine caught.quiet whole rfl (taken_log _ (by simp)) (fun k ring done _ => .inl ?_)
            fun k walks => ?_
          · rwa [place]
          · rwa [place]
      | final => exact .closed (fun _ => id) fun _ => id
  | @drained i entry ring passed limit place here more =>
      have given := flushRecord_handed (engine.setEntry i { entry with
        pit := engine.beyond entry ring passed }) ring (slotOf (engine.obj ring).ring.capacity passed)
      have pc := given.pc.trans place
      refine caught.rewritten whole { entry with pit := engine.beyond entry ring passed } here.found
        rfl rfl (flushRecord_index _ _) (fun k other done indexed => ?_) fun k walks => ?_
      · rw [pc] at done
        have apart : other ≠ ring := by
          rintro rfl
          have same := deserted.sound.registered.distinct _ _ _ indexed
            (ringAt_eq_some.mpr ⟨entry, here.found, here.valid⟩)
          exact Nat.ne_of_lt done same
        rw [pending_perm (by rw [given.tso]) (given.flushed_other apart)]
        exact caught.completed k other (by rwa [place]) indexed
      · rwa [pc, ← place] at walks
  | @drainCommitted i entry ring passed place here =>
      refine caught.rewritten whole { entry with lastrec := none } here.found rfl rfl rfl
        (fun k other done indexed => ?_) fun _ walks => walks.elim
      change engine.taken k other = _
      rcases Nat.lt_or_eq_of_le done with less | rfl
      · exact caught.completed k other (by rwa [place]) indexed
      · obtain rfl : ring = other := Option.some.inj
          ((ringAt_eq_some.mpr ⟨entry, here.found, here.valid⟩).symm.trans indexed)
        exact caught.finished deserted (by rw [place]; rfl) here
  | @passedOver i place =>
      refine caught.quiet whole rfl (fun _ _ => rfl) (fun k ring done _ => .inl ?_)
        fun _ walks => walks.elim
      have before : k ≤ i := Nat.lt_succ_iff.mp done
      cases at' : engine.pc with
      | orphan | empty | kill =>
          rw [at'] at place
          obtain rfl := place
          exact before
      | _ => exact absurd place (by rw [at']; exact id)
  | @orphaned i ring place found alone =>
      exact caught.quiet whole rfl (taken_log _ (by simp)) (fun k ring done _ => .inl (by rwa [place]))
        fun _ walks => walks.elim
  | @emptied i ring place found empty =>
      exact caught.quiet whole rfl (fun _ _ => rfl) (fun k ring done _ => .inl (by rwa [place]))
        fun _ walks => walks.elim
  | @reaped i entry ring place found valid =>
      have inside := (List.getElem?_eq_some_iff.mp found).1
      refine ⟨fun k other done indexed => ?_, fun k other owner walks => ?_⟩
      · rw [killOrphan_eq found valid] at done indexed
        have apart : k ≠ i := by
          rintro rfl
          obtain ⟨entry', read, owns⟩ := ringAt_eq_some.mp indexed
          obtain rfl := Option.some.inj ((List.getElem?_set_self inside).symm.trans read)
          cases owns
        have before : engine.ringAt k = some other := by
          rwa [ringAt, setEntry, log, List.getElem?_set_ne (Ne.symm apart)] at indexed
        rw [whole.committed_eq, ← caught.completed k other (by rwa [place]) before,
          killOrphan_eq found valid]
        exact taken_log (.reaped ring) (by simp) k other
      · rw [killOrphan_eq found valid] at walks
        exact walks.elim
  | @released i ring place =>
      refine caught.quiet whole rfl (fun _ _ => rfl) (fun k ring done _ => .inl ?_)
        fun _ walks => walks.elim
      rw [place]
      exact Nat.lt_succ_iff.mp done

end Caught

/-! ## What a step does to the registration of rings -/

/-- The same rings at the same places of the index, and the same ring map. -/
structure SameRegistry (before after : Engine) : Prop where
  rings : after.index.map (·.ring) = before.index.map (·.ring)
  ringMap : after.shared.ringMap = before.shared.ringMap
  dirty : after.shared.dirty = before.shared.dirty
  unmarked : after.shared.unmarked = before.shared.unmarked

namespace SameRegistry

theorem of_index (index : next.index = engine.index)
    (ringMap : next.shared.ringMap = engine.shared.ringMap)
    (dirty : next.shared.dirty = engine.shared.dirty)
    (unmarked : next.shared.unmarked = engine.shared.unmarked) : SameRegistry engine next :=
  ⟨by rw [index], ringMap, dirty, unmarked⟩

theorem trans {first second third : Engine} (left : SameRegistry first second)
    (right : SameRegistry second third) : SameRegistry first third :=
  ⟨right.rings.trans left.rings, right.ringMap.trans left.ringMap, right.dirty.trans left.dirty,
    right.unmarked.trans left.unmarked⟩

theorem set {i : Nat} {entry : IndexEntry} (found : engine.index[i]? = some entry)
    (updated : IndexEntry) (same : updated.ring = entry.ring) :
    SameRegistry engine (engine.setEntry i updated) :=
  ⟨(@SameIndex.set engine (engine.setEntry i updated) i entry updated found same rfl
    fun _ => rfl).rings, rfl, rfl, rfl⟩

theorem handed {start : Engine} {ring : RingId} {slot : UInt32} (given : Handed start next ring slot)
    (index : next.index = start.index) : SameRegistry start next :=
  .of_index index given.ringMap given.dirty given.unmarked

theorem flushFull (std : StdSort) (i : Nat) (tsoTs : UInt64) :
    SameRegistry engine (engine.flushFullTso std i tsoTs) := by
  have marked : SameRegistry engine engine.markTsoFull := by
    rcases engine.markTsoFull_cases with same | ⟨event, -, same⟩ | same <;> rw [same] <;>
      exact .of_index rfl rfl rfl rfl
  exact ⟨marked.rings, marked.ringMap, marked.dirty, marked.unmarked⟩

theorem ringAt (same : SameRegistry engine next) : next.ringAt = engine.ringAt := by
  funext i
  have read := congrArg (·[i]?) same.rings
  simp only [List.getElem?_map] at read
  rw [Engine.ringAt, Engine.ringAt]
  cases at' : next.index[i]? with
  | none =>
      rw [at', Option.map_none] at read
      rw [Option.map_eq_none_iff.mp read.symm]
  | some entry =>
      rw [at', Option.map_some] at read
      obtain ⟨old, found, same⟩ := Option.map_eq_some_iff.mp read.symm
      rw [found]
      exact same.symm

end SameRegistry

/-- Apart from the rebuild of the index and from `kill_orphan`, the engine
leaves the rings where they are. -/
theorem EngineStep.registers (shape : engine.EngineStep std next) (outside : engine.pc ≠ .rebuild) :
    SameRegistry engine next ∨
    ∃ (i : Nat) (entry : IndexEntry) (ring : RingId), engine.pc = .kill i ∧
      engine.index[i]? = some entry ∧ entry.ring = some ring ∧ next = engine.killOrphan i true := by
  cases shape with
  | unlocked place | rebuilt place => exact absurd place outside
  | @reset i entry ring place found valid =>
      exact .inl ((SameRegistry.set found { entry with pit := .reset (engine.obj ring).ring } rfl).trans
        (.of_index rfl rfl rfl rfl))
  | @pushed i tsoTs entry ring passed limit place here more room =>
      exact .inl ((SameRegistry.set here.found { entry with pit := engine.beyond entry ring passed }
        rfl).trans (.of_index rfl rfl rfl rfl))
  | @filled i tsoTs entry ring passed limit place here more full =>
      have pushed := (SameRegistry.set here.found { entry with
        pit := engine.beyond entry ring passed } rfl).trans (@SameRegistry.of_index _
          (engine.pushRecord i entry (engine.beyond entry ring passed)
            (engine.entryFor i tsoTs ring passed)) rfl rfl rfl rfl)
      exact .inl (pushed.trans (.flushFull std i _))
  | @popped left caller te rest entry ring place entries found valid within =>
      have given : Handed (engine.popTo left caller rest)
        ((engine.popTo left caller rest).flushEntry te) ring te.slot := flushEntry_handed found valid
      obtain ⟨updated, owner, index⟩ : ∃ updated : IndexEntry, updated.ring = entry.ring ∧
          ((engine.popTo left caller rest).flushEntry te).index =
            (engine.setEntry te.tag updated).index := by
        have index := @flushEntry_index (engine.popTo left caller rest) te entry ring found valid
        refine ⟨_, ?_, index⟩
        rfl
      exact .inl ((SameRegistry.set found updated owner).trans
        (.of_index index given.ringMap given.dirty given.unmarked))
  | @returned left caller => cases caller <;> exact .inl (.of_index rfl rfl rfl rfl)
  | @drained i entry ring passed limit place here more =>
      exact .inl ((SameRegistry.set here.found { entry with pit := engine.beyond entry ring passed }
        rfl).trans (.handed (flushRecord_handed _ _ _) (flushRecord_index _ _)))
  | @drainCommitted i entry ring passed place here =>
      exact .inl ((SameRegistry.set here.found { entry with lastrec := none } rfl).trans
        (.of_index rfl rfl rfl rfl))
  | @reaped i entry ring place found valid =>
      exact .inr ⟨i, entry, ring, place, found, valid, rfl⟩
  | @committed i entry ring slot place found last valid within =>
      exact .inl ((SameRegistry.set found { entry with
        pit := entry.pit.rewind slot, lastrec := none } rfl).trans (.of_index rfl rfl rfl rfl))
  | _ => exact .inl (.of_index rfl rfl rfl rfl)

/-- `kill_orphan` leaves the rings of other names where they are. -/
theorem killOrphan_others {i k : Nat} {entry : IndexEntry} {owner ring : RingId}
    (found : engine.index[i]? = some entry) (valid : entry.ring = some owner)
    (member : ring ∈ (engine.killOrphan i true).shared.ringMap)
    (indexed : engine.ringAt k = some ring) :
    i ≠ k ∧ (engine.killOrphan i true).ringAt k = some ring := by
  rw [killOrphan_eq found valid] at member ⊢
  have named := (List.mem_filter.mp member).2
  have apart : i ≠ k := by
    rintro rfl
    obtain rfl := Option.some.inj ((ringAt_eq_some.mpr ⟨entry, found, valid⟩).symm.trans indexed)
    exact absurd rfl (of_decide_eq_true named)
  refine ⟨apart, ?_⟩
  rw [ringAt, setEntry, log, List.getElem?_set_ne apart]
  exact indexed

theorem EngineStep.of_rebuild (shape : engine.EngineStep std next) (place : engine.pc = .rebuild) :
    next = engine.goto (.scan 0) ∨ next = (engine.rebuildRingIndex std).goto (.scan 0) := by
  cases shape with
  | unlocked => exact .inl rfl
  | rebuilt => exact .inr rfl
  | polled other | skipped other | exhausted other | flushing other | reset other | walked other
  | pushed other | filled other | popped other | returned other | drained other
  | drainCommitted other | orphaned other | emptied other | reaped other | released other
  | committed other | untouched other | settled other | finished other =>
      cases place.symm.trans other
  | passedOver other =>
      rw [place] at other
      exact other.elim

theorem EngineStep.mapped (shape : engine.EngineStep std next) :
    next.shared.unmarked = engine.shared.unmarked ∧
      ∀ ring ∈ next.shared.ringMap, ring ∈ engine.shared.ringMap := by
  by_cases place : engine.pc = .rebuild
  · rcases shape.of_rebuild place with rfl | rfl <;> exact ⟨rfl, fun _ => id⟩
  · rcases shape.registers place with same | ⟨i, entry, ring, -, found, valid, rfl⟩
    · exact ⟨same.unmarked, fun ring => same.ringMap ▸ id⟩
    · rw [killOrphan_eq found valid]
      exact ⟨rfl, fun other member => (List.mem_filter.mp member).1⟩

theorem EngineStep.whole (shape : engine.EngineStep std next) (whole : engine.Whole) : next.Whole := by
  by_cases place : engine.pc = .rebuild
  · rcases shape.of_rebuild place with rfl | rfl
    · exact whole
    · intro _ member
      obtain ⟨entry, listed, none⟩ := List.mem_map.mp member
      obtain ⟨ring, -, rfl⟩ := mem_rebuild.mp listed
      cases none
  · rcases shape.registers place with same | ⟨i, entry, ring, -, found, valid, rfl⟩
    · rw [Whole, same.dirty, same.rings]
      exact whole
    · rw [killOrphan_eq found valid]
      intro clean
      cases clean

theorem EngineStep.handed_le (shape : engine.EngineStep std next) (ring : RingId) :
    engine.handed ring ≤ next.handed ring := by
  obtain ⟨events, trace, -⟩ := shape.trace
  rw [handed, handed, Shared.flushed, Shared.flushed, trace, flushedTo_append, List.length_append]
  omega

theorem EngineStep.backlog_le (shape : engine.EngineStep std next) : next.backlog ≤ engine.backlog := by
  refine (Finset.sum_le_sum fun ring _ => ?_).trans (Finset.sum_le_sum_of_subset fun ring member => ?_)
  · have more := shape.handed_le ring
    rw [owed, owed, shape.committed_eq]
    omega
  · exact List.mem_toFinset.mpr (shape.mapped.2 ring (List.mem_toFinset.mp member))

theorem Deserted.step (deserted : engine.Deserted) (std : StdSort) (trylock : Bool) :
    (engine.step std trylock).Deserted := by
  have shape := deserted.sound.tracked.shape std trylock
  refine ⟨deserted.sound.act std (.engine trylock), fun ring => ?_, fun ring =>
    (deserted.delivering ring).step deserted.sound (deserted.clear ring) shape, fun ring member => ?_,
    shape.mapped.1.trans deserted.unmarked, shape.whole deserted.whole⟩
  · rw [Clear, (shape.objs ring).capacity, shape.committed_eq]
    exact deserted.clear ring
  · exact (shape.objs ring).clients.trans (deserted.alone ring (shape.mapped.2 ring member))

/-! ## Two polls hand everything over -/

/-- The poll may leave the reserve behind, or it began with no more than that
and will ask for all of it. -/
def Prepared (engine : Engine) (size reserve : Nat) : Prop :=
  engine.tsoDisabled = false →
    reserve = size / 8 ∨ engine.backlog ≤ engine.leftover ∧ engine.backlog ≤ size / 8

/-- What was left behind, for which the next poll will ask. -/
def Reduced (engine : Engine) (reserve : Nat) : Prop :=
  (engine.tsoDisabled = true → engine.backlog = 0) ∧
    (engine.tsoDisabled = false → engine.backlog ≤ reserve ∧ engine.backlog ≤ engine.leftover)

/-- What holds at each place of a poll that is to leave no more than `reserve` behind. -/
def Due (engine : Engine) (size reserve : Nat) : Pc → Prop
  | .scan _ | .walk _ _ | .drain _ | .orphan _ | .empty _ | .kill _ | .release _ _ =>
      engine.Prepared size reserve
  | .doFlush _ (.full _ _) => reserve = size / 8
  | .doFlush left .final => engine.tso.size ≤ left + reserve
  | .commit _ | .finish | .idle => engine.Reduced reserve
  | .rebuild | .halted => True

theorem Prepared.step {size reserve : Nat} (prepared : engine.Prepared size reserve)
    (less : next.backlog ≤ engine.backlog) (mode : next.tsoDisabled = engine.tsoDisabled)
    (leftover : next.leftover = engine.leftover) : next.Prepared size reserve := by
  intro enabled
  rw [mode] at enabled
  rw [leftover]
  exact (prepared enabled).imp_right fun bounds => ⟨less.trans bounds.1, less.trans bounds.2⟩

theorem Reduced.step {reserve : Nat} (reduced : engine.Reduced reserve)
    (less : next.backlog ≤ engine.backlog) (mode : next.tsoDisabled = engine.tsoDisabled)
    (leftover : next.leftover = engine.leftover) : next.Reduced reserve := by
  rw [Reduced, mode, leftover]
  refine ⟨fun disabled => ?_, fun enabled => ?_⟩
  · have none := reduced.1 disabled
    omega
  · obtain ⟨few, asked⟩ := reduced.2 enabled
    exact ⟨less.trans few, less.trans asked⟩

/-- A poll with no client around, behind the rebuild of the index. -/
structure Sweeping (size reserve : Nat) (engine : Engine) : Prop where
  deserted : engine.Deserted
  caught : engine.Caught
  roomy : engine.tsoDisabled = false → engine.Roomy size
  covered : engine.pc ≠ .idle → ∀ ring ∈ engine.shared.ringMap, ∃ k, engine.ringAt k = some ring
  due : engine.Due size reserve engine.pc

namespace Sweeping

variable {size reserve : Nat}

theorem covered_step (sweeping : engine.Sweeping size reserve) (shape : engine.EngineStep std next)
    (inPoll : engine.InPoll) :
    ∀ ring ∈ next.shared.ringMap, ∃ k, next.ringAt k = some ring := by
  intro ring member
  rcases shape.registers inPoll.2 with same | ⟨i, entry, owner, -, found, valid, rfl⟩
  · rw [same.ringAt]
    rw [same.ringMap] at member
    exact sweeping.covered inPoll.1 ring member
  · obtain ⟨k, indexed⟩ := sweeping.covered inPoll.1 ring (shape.mapped.2 ring member)
    exact ⟨k, (killOrphan_others found valid member indexed).2⟩

/-- When all rings have been read, no more is owed than what the buffer holds. -/
theorem backlog_le (sweeping : engine.Sweeping size reserve) (busy : engine.pc ≠ .idle)
    (done : ∀ k ring, engine.ringAt k = some ring → engine.pc.Completed k) :
    engine.backlog ≤ engine.tso.size := by
  refine backlog_le_size sweeping.deserted.sound.registered sweeping.deserted.sound.tracked ?_
  intro ring member
  obtain ⟨k, indexed⟩ := sweeping.covered busy ring member
  exact ⟨k, indexed, sweeping.caught.completed k ring (done k ring indexed) indexed⟩

theorem due_step (large : 2 ≤ size) (sweeping : engine.Sweeping size reserve)
    (shape : engine.EngineStep std next) (inPoll : engine.InPoll) :
    next.Due size reserve next.pc := by
  have less := shape.backlog_le
  have due := sweeping.due
  have mode := shape.mode
  have buffered := size_le_backlog sweeping.deserted
  cases shape with
  | polled place => exact absurd place inPoll.1
  | unlocked place | rebuilt place => exact absurd place inPoll.2
  | skipped place | walked place | pushed place | drainCommitted place | orphaned place
  | emptied place | released place =>
      rw [place] at due
      exact Prepared.step due less mode rfl
  | @exhausted i place past disabled =>
      have nothing : engine.tso.size = 0 := by
        rw [Tsobuf.size, (sweeping.deserted.sound.tracked.notso disabled).1, List.length_nil]
      have all := sweeping.backlog_le inPoll.1 fun k ring indexed => by
        obtain ⟨entry, found, -⟩ := ringAt_eq_some.mp indexed
        rw [place]
        exact (List.getElem?_eq_some_iff.mp found).1.trans_le (List.getElem?_eq_none_iff.mp past)
      refine ⟨fun _ => by omega, fun enabled => ?_⟩
      rw [mode, disabled] at enabled
      cases enabled
  | @flushing i place past enabled =>
      rw [place] at due
      have capacity := (sweeping.roomy enabled).capacity
      have sorted : (engine.flushTso std).tso.size = engine.tso.size :=
        (flushTso_entries std).length_eq
      change (engine.flushTso std).tso.size ≤ engine.flushSize + reserve
      rw [sorted, flushSize, capacity]
      rcases due enabled with all | ⟨asked, few⟩ <;> grind
  | @reset i entry ring place found valid =>
      rw [place] at due
      have prepared := Prepared.step due less mode rfl
      rw [goto]
      dsimp only
      split
      · exact prepared
      · exact prepared
  | @filled i tsoTs entry ring passed limit place here more full =>
      rw [place] at due
      change reserve = size / 8
      have enabled : engine.tsoDisabled = false := by
        cases disabled : engine.tsoDisabled with
        | false => rfl
        | true =>
            have timed := (sweeping.deserted.sound.tracked.notso disabled).2.2
            rw [place] at timed
            cases timed
      have roomy := sweeping.roomy enabled
      have front := (roomy.scanning (by rw [place]; rfl)).1
      rw [Tsobuf.tail, front, roomy.capacity] at full
      rw [Tsobuf.size] at buffered
      rcases due enabled with all | ⟨asked, few⟩
      · exact all
      · omega
  | @popped left caller te rest entry ring place entries found valid within =>
      have given : Handed (engine.popTo left caller rest)
        ((engine.popTo left caller rest).flushEntry te) ring te.slot := flushEntry_handed found valid
      rw [place] at due
      rw [given.pc]
      cases caller with
      | full i tsoTs => exact due
      | final =>
          change engine.tso.size ≤ left + 1 + reserve at due
          change ((engine.popTo left .final rest).flushEntry te).tso.size ≤ left + reserve
          rw [Tsobuf.size, entries, List.length_cons] at due
          rw [given.tso, Tsobuf.size]
          change rest.length ≤ left + reserve
          omega
  | @returned left caller place past =>
      rw [place] at due
      cases caller with
      | full i tsoTs => exact fun _ => .inl due
      | final =>
          change engine.tso.size ≤ left + reserve at due
          have all := sweeping.backlog_le inPoll.1 fun k ring _ => by
            rw [place]
            trivial
          have few : engine.tso.size ≤ reserve := by
            rcases past with rfl | nothing
            · omega
            · rw [Tsobuf.size, nothing]
              exact Nat.zero_le _
          refine ⟨fun disabled => ?_, fun _ => ⟨?_, ?_⟩⟩
          · rw [mode] at disabled
            have timed := (sweeping.deserted.sound.tracked.notso disabled).2.2
            rw [place] at timed
            cases timed
          · omega
          · exact less.trans all
  | @drained i entry ring passed limit place here more =>
      have given := flushRecord_handed (engine.setEntry i { entry with
        pit := engine.beyond entry ring passed }) ring (slotOf (engine.obj ring).ring.capacity passed)
      rw [place] at due
      rw [given.pc.trans place]
      exact Prepared.step due less mode given.leftover
  | @passedOver i place =>
      have prepared : engine.Prepared size reserve := by
        cases at' : engine.pc with
        | orphan | empty | kill => rwa [at'] at due
        | _ => exact absurd place (by rw [at']; exact id)
      exact prepared.step less mode rfl
  | @reaped i entry ring place found valid =>
      rw [place] at due
      rw [killOrphan_eq found valid] at less mode ⊢
      exact Prepared.step due less mode rfl
  | committed place | untouched place | settled place | finished place =>
      rw [place] at due
      exact Reduced.step due less mode rfl

theorem step (large : 2 ≤ size) (sweeping : engine.Sweeping size reserve) (std : StdSort)
    (inPoll : engine.InPoll) : (engine.step std true).Sweeping size reserve := by
  have shape := sweeping.deserted.sound.tracked.shape std true
  refine ⟨sweeping.deserted.step std true, sweeping.caught.step sweeping.deserted shape,
    fun enabled => ?_, fun _ => sweeping.covered_step shape inPoll,
    sweeping.due_step large shape inPoll⟩
  exact (sweeping.roomy (shape.mode ▸ enabled)).step large shape

end Sweeping

end Engine

end Hogl.Polling
