import Hogl.Engine.Sweeping
import Hogl.Engine.Reuse

namespace Hogl.Polling

open Hogl.Data Hogl.Ring

/-! # Draining

`drain_rings` polls until the index is empty.  Once no client holds a ring
any more, four polls are enough: the first hands over all but the reserve of
the TSO buffer, the second the reserve, the third drops the rings, which are
empty by then, and the fourth finds the ring map empty.
-/

/-- The poll has still to come to index entry `k`, or is at it. -/
def Pc.Ahead : Pc → Nat → Prop
  | .scan n, k | .walk n _, k | .drain n, k | .orphan n, k | .empty n, k | .kill n, k
  | .doFlush _ (.full n _), k => n ≤ k
  | .release n _, k => n < k
  | _, _ => False

namespace Engine

variable {engine next : Engine} {std : StdSort}

/-- The engine thread takes steps on its own, and the mutex is free. -/
def drive (std : StdSort) (engine : Engine) (steps : Nat) : Engine :=
  engine.after std (List.replicate steps (.engine true))

theorem drive_succ (std : StdSort) (engine : Engine) (steps : Nat) :
    engine.drive std (steps + 1) = (engine.step std true).drive std steps := by
  rw [drive, List.replicate_succ]
  rfl

theorem drive_add (std : StdSort) (engine : Engine) (first second : Nat) :
    engine.drive std (first + second) = (engine.drive std first).drive std second := by
  rw [drive, List.replicate_add, after_append]
  rfl

/-- Only the head of `process_rings` counts a poll. -/
theorem EngineStep.pollCount_eq (shape : engine.EngineStep std next) (busy : engine.pc ≠ .idle) :
    next.pollCount = engine.pollCount := by
  have quiet {events : List Event} (trace : next.shared.trace = engine.shared.trace ++ events)
      (unpolled : .polled ∉ events) : next.pollCount = engine.pollCount := by
    rw [pollCount, trace, List.count_append, List.count_eq_zero.mpr unpolled, Nat.add_zero, pollCount]
  cases shape with
  | polled place => exact absurd place busy
  | rebuilt | reset | pushed | orphaned => exact quiet rfl (by simp)
  | unlocked | skipped | exhausted | flushing | walked | drainCommitted | passedOver | emptied
  | released | committed | untouched | settled | finished => rfl
  | @filled i tsoTs entry ring passed limit place here more full =>
      obtain ⟨events, trace, -, unpolled⟩ := markTsoFull_aside
        (engine.pushRecord i entry (engine.beyond entry ring passed)
          (engine.entryFor i tsoTs ring passed))
      have logged : (engine.shared.trace ++ [.tsoPush engine.tso.tail]) ++ events =
          engine.shared.trace ++ .tsoPush engine.tso.tail :: events := by
        rw [List.append_assoc, List.singleton_append]
      exact quiet (trace.trans logged) (by simpa)
  | @popped left caller te rest entry ring place entries found valid within =>
      obtain ⟨events, trace, unpolled⟩ := Handed.unpolled
        (@flushEntry_handed (engine.popTo left caller rest) te entry ring found valid)
      exact quiet trace unpolled
  | @returned left caller =>
      cases caller with
      | full => exact quiet rfl (by simp)
      | final => rfl
  | @drained i entry ring passed limit place here more =>
      obtain ⟨events, trace, unpolled⟩ := Handed.unpolled (flushRecord_handed
        (engine.setEntry i { entry with pit := engine.beyond entry ring passed }) ring
        (slotOf (engine.obj ring).ring.capacity passed))
      exact quiet trace unpolled
  | reaped place found valid =>
      rw [killOrphan_eq found valid] at quiet ⊢
      exact quiet rfl (by simp)

/-- What each step of a poll keeps holds at the end of the poll. -/
theorem poll_keeps {Kept : Engine → Prop} (std : StdSort)
    (sound : ∀ engine, Kept engine → engine.Sound)
    (kept : ∀ engine, Kept engine → engine.InPoll → Kept (engine.step std true))
    (start : Kept engine) (outside : engine.pc ≠ .rebuild) :
    ∃ steps, Kept (engine.drive std steps) ∧ (engine.drive std steps).pc = .idle ∧
      (engine.drive std steps).pollCount = engine.pollCount := by
  induction left : engine.remaining using Nat.strongRecOn generalizing engine with
  | ind left ih =>
      by_cases idle : engine.pc = .idle
      · exact ⟨0, start, idle, rfl⟩
      · have inPoll : engine.InPoll := ⟨idle, outside⟩
        have shape := (sound engine start).tracked.shape std true
        have less := shape.remaining_lt (sound engine start) inPoll
        obtain ⟨steps, holds, rests, count⟩ := ih _ (left ▸ less) (kept engine start inPoll)
          (shape.not_rebuild idle) rfl
        refine ⟨steps + 1, ?_, ?_, ?_⟩ <;> rw [drive_succ]
        · exact holds
        · exact rests
        · exact count.trans (shape.pollCount_eq idle)

/-- A ring that was registered at the start still is, or everything in it has
been handed over. -/
def Spared (start engine : Engine) : Prop := ∀ ring ∈ start.shared.ringMap,
  ring ∈ engine.shared.ringMap ∨ (engine.shared.committed ring).length ≤ engine.handed ring

namespace Spared

variable {start : Engine}

theorem out (shape : engine.EngineStep std next) {ring : RingId}
    (out : (engine.shared.committed ring).length ≤ engine.handed ring) :
    (next.shared.committed ring).length ≤ next.handed ring := by
  rw [shape.committed_eq]
  exact out.trans (shape.handed_le ring)

theorem kept (spared : Spared start engine) (shape : engine.EngineStep std next)
    (ringMap : next.shared.ringMap = engine.shared.ringMap) : Spared start next := by
  intro ring member
  rw [ringMap]
  exact (spared ring member).imp_right (out shape)

theorem step {size reserve : Nat} (spared : Spared start engine)
    (sweeping : engine.Sweeping size reserve) (shape : engine.EngineStep std next)
    (inPoll : engine.InPoll) : Spared start next := by
  rcases shape.registers inPoll.2 with same | ⟨i, entry, owner, place, found, valid, killed⟩
  · exact spared.kept shape same.ringMap
  · intro ring member
    rcases spared ring member with listed | gone
    · have indexed : engine.ringAt i = some owner := ringAt_eq_some.mpr ⟨entry, found, valid⟩
      have registered := sweeping.deserted.sound.registered
      by_cases own : ring = owner
      · subst own
        -- Nothing of the ring is in the buffer, and it was read to its end.
        have clean := (sweeping.deserted.sound.tracked.clean i place).1
        have nothing : engine.pending i = [] := List.filter_eq_nil_iff.mpr
          fun te member same => clean te member (beq_iff_eq.mp same)
        have read := sweeping.caught.completed i ring (by rw [place]; exact Nat.le_refl i) indexed
        rw [taken, nothing, List.length_nil, Nat.add_zero] at read
        exact .inr (out shape read.ge)
      · refine .inl ?_
        rw [killed, killOrphan_eq found valid]
        refine List.mem_filter.mpr ⟨listed, decide_eq_true fun same => own ?_⟩
        exact registered.keyed.names ring listed owner (registered.mapped i owner indexed) same
    · exact .inr (out shape gone)

end Spared

/-- A poll has begun, and the index is up to date. -/
structure Opened (size reserve : Nat) (engine opened : Engine) : Prop where
  place : opened.pc = .scan 0
  sweeping : opened.Sweeping size reserve
  clean : opened.shared.dirty = false
  ringMap : opened.shared.ringMap = engine.shared.ringMap
  backlog : opened.backlog = engine.backlog
  pollCount : opened.pollCount = engine.pollCount + 1
  spared : ∀ start, Spared start engine → Spared start opened

theorem backlog_of_same (ringMap : next.shared.ringMap = engine.shared.ringMap)
    (committed : ∀ ring, next.shared.committed ring = engine.shared.committed ring)
    (flushed : ∀ ring, next.shared.flushed ring = engine.shared.flushed ring) :
    next.backlog = engine.backlog := by
  simp only [backlog, owed, handed, ringMap, committed, flushed]

theorem processRings_counts (engine : Engine) :
    engine.processRings.pollCount = engine.pollCount + 1 := by
  rw [pollCount, show engine.processRings.shared.trace = engine.shared.trace ++ [.polled] from rfl,
    List.count_append, pollCount]
  rfl

/-- The steps up to the loop over the index: no client is in the way of the rebuild. -/
theorem opens {size reserve : Nat} (large : 2 ≤ size) (deserted : engine.Deserted)
    (std : StdSort) (idle : engine.pc = .idle)
    (roomy : engine.tsoDisabled = false → engine.Roomy size)
    (prepared : engine.Prepared size reserve) :
    ∃ steps, Opened size reserve engine (engine.drive std steps) := by
  have polled : engine.EngineStep std engine.processRings := .polled idle
  have begun : engine.processRings.Deserted := by
    have next := deserted.step std true
    rwa [step, idle] at next
  have roomed (enabled : engine.tsoDisabled = false) : engine.processRings.Roomy size :=
    (roomy enabled).step large polled
  have same : engine.processRings.backlog = engine.backlog :=
    backlog_of_same rfl (fun ring => polled.committed_eq ring)
      fun ring => Shared.flushed_log ring (by simp)
  cases dirty : engine.shared.dirty with
  | false =>
      have place : engine.processRings.pc = .scan 0 := by simp only [processRings, dirty]; rfl
      have first : engine.drive std 1 = engine.processRings := by
        rw [drive_succ, step, idle]
        rfl
      refine ⟨1, ?_⟩
      rw [first]
      refine ⟨place, ⟨begun, .opened place, roomed, fun _ ring member => ?_, ?_⟩, dirty, rfl, same,
        processRings_counts engine, fun start spared => spared.kept polled rfl⟩
      · rcases begun.sound.registered.flagged ring member with indexed | flagged | unmarked
        · exact indexed
        · exact absurd (dirty.symm.trans flagged) Bool.false_ne_true
        · rw [begun.unmarked] at unmarked
          cases unmarked
      · rw [place]
        exact prepared.step same.le rfl rfl
  | true =>
      have place : engine.processRings.pc = .rebuild := by simp only [processRings, dirty]; rfl
      have rebuilt : engine.processRings.EngineStep std
        ((engine.processRings.rebuildRingIndex std).goto (.scan 0)) := .rebuilt place
      have second : engine.drive std 2 =
          (engine.processRings.rebuildRingIndex std).goto (.scan 0) := by
        rw [drive_succ, step, idle, drive_succ]
        dsimp only
        rw [step, place]
        rfl
      have again : ((engine.processRings.rebuildRingIndex std).goto (.scan 0)).backlog =
          engine.processRings.backlog :=
        backlog_of_same rfl (fun ring => rebuilt.committed_eq ring)
          fun ring => Shared.flushed_log ring (by simp)
      refine ⟨2, ?_⟩
      rw [second]
      refine ⟨rfl, ⟨?_, .opened rfl, fun enabled => (roomed enabled).step large rebuilt,
        fun _ ring member => ?_, prepared.step (again.trans same).le rfl rfl⟩, rfl, rfl,
        again.trans same, ?_, fun start spared => (spared.kept polled rfl).kept rebuilt rfl⟩
      · have next := begun.step std true
        rwa [step, place] at next
      · obtain ⟨k, read⟩ := List.getElem?_of_mem (mem_rebuild.mpr ⟨ring, member, rfl⟩ :
          engine.processRings.newEntry ring ∈ (engine.processRings.rebuildRingIndex std).index)
        exact ⟨k, ringAt_eq_some.mpr ⟨_, read, rfl⟩⟩
      · exact (rebuilt.pollCount_eq (by rw [place]; exact fun other => by cases other)).trans
          (processRings_counts engine)

/-! ## The rings are dropped -/

/-- A poll that finds every ring empty. -/
structure Clearing (size : Nat) (engine : Engine) : Prop where
  sweeping : engine.Sweeping size 0
  nothing : engine.backlog = 0
  unread : ∀ entry ∈ engine.index, entry.lastrec = none
  ahead : ∀ ring ∈ engine.shared.ringMap, ∃ k, engine.pc.Ahead k ∧ engine.ringAt k = some ring

namespace Clearing

variable {size : Nat}

theorem out (clearing : engine.Clearing size) {i : Nat} {ring : RingId}
    (indexed : engine.ringAt i = some ring) :
    engine.handed ring = (engine.shared.committed ring).length := by
  have registered := clearing.sweeping.deserted.sound.registered
  have owed := owed_of_backlog clearing.nothing (registered.mapped i ring indexed)
  have most := (clearing.sweeping.deserted.delivering ring).handed_le
  rw [Engine.owed] at owed
  omega

/-- No iterator finds a record. -/
theorem no_record (clearing : engine.Clearing size) {i passed limit : Nat} {entry : IndexEntry}
    {ring : RingId} (walks : engine.pc.Walking i)
    (here : engine.AtRecord i entry ring passed limit) : ¬ passed < limit := by
  have all := clearing.out (ringAt_eq_some.mpr ⟨entry, here.found, here.valid⟩)
  have read := ((clearing.sweeping.deserted.delivering ring).passed_eq
    clearing.sweeping.deserted.sound walks here).1
  have upper := here.upper
  omega

theorem orphan (clearing : engine.Clearing size) (std : StdSort) {i : Nat}
    (place : engine.pc = .orphan i) :
    ∃ ring, engine.step std true = (engine.log (.orphaned ring)).goto (.empty i) := by
  have deserted := clearing.sweeping.deserted
  obtain ⟨ring, indexed⟩ := deserted.sound.tracked.reaping i (by rw [place]; rfl)
  obtain ⟨entry, found, valid⟩ := ringAt_eq_some.mp indexed
  have member := deserted.sound.registered.mapped i ring indexed
  have alone : (engine.obj ring).refcnt = 1 := by
    rw [deserted.sound.registered.refs ring, deserted.alone ring member, Shared.owned,
      if_pos member, place]
    rfl
  refine ⟨ring, ?_⟩
  rw [Engine.step, place]
  dsimp only
  rw [testOrphan, withRing_eq found valid, if_pos alone]

theorem empty (clearing : engine.Clearing size) (std : StdSort) {i : Nat}
    (place : engine.pc = .empty i) : engine.step std true = engine.goto (.kill i) := by
  have deserted := clearing.sweeping.deserted
  obtain ⟨ring, indexed⟩ := deserted.sound.tracked.reaping i (by rw [place]; rfl)
  obtain ⟨entry, found, valid⟩ := ringAt_eq_some.mp indexed
  have popped := (deserted.delivering ring).rested i entry found valid
    (clearing.unread entry (List.mem_of_getElem? found)) (by rw [place]; exact fun other => by cases other)
  have empty : (engine.obj ring).ring.empty = true := by
    refine (deserted.sound.tracked.spanned ring).empty_iff.mpr ?_
    exact popped.trans (clearing.out indexed)
  rw [Engine.step, place]
  dsimp only
  rw [testEmpty, withRing_eq found valid, if_pos empty]

theorem ahead_kept (clearing : engine.Clearing size) (same : SameRegistry engine next)
    (onward : ∀ k ring, engine.pc.Ahead k → engine.ringAt k = some ring → next.pc.Ahead k) :
    ∀ ring ∈ next.shared.ringMap, ∃ k, next.pc.Ahead k ∧ next.ringAt k = some ring := by
  intro ring member
  rw [same.ringMap] at member
  obtain ⟨k, ahead, indexed⟩ := clearing.ahead ring member
  exact ⟨k, onward k ring ahead indexed, same.ringAt ▸ indexed⟩

theorem no_entry (clearing : engine.Clearing size) : engine.tso.entries = [] := by
  have few := size_le_backlog clearing.sweeping.deserted
  rw [clearing.nothing] at few
  exact List.length_eq_zero_iff.mp (Nat.le_zero.mp few)

theorem unread_step (clearing : engine.Clearing size) (shape : engine.EngineStep std next)
    (inPoll : engine.InPoll) : ∀ entry ∈ next.index, entry.lastrec = none := by
  have set {i : Nat} {updated : IndexEntry} (unread : updated.lastrec = none) :
      ∀ entry ∈ engine.index.set i updated, entry.lastrec = none := by
    intro entry member
    rcases List.mem_or_eq_of_mem_set member with old | rfl
    · exact clearing.unread entry old
    · exact unread
  have known {i : Nat} {entry : IndexEntry} (found : engine.index[i]? = some entry) :=
    clearing.unread entry (List.mem_of_getElem? found)
  cases shape with
  | unlocked place | rebuilt place => exact absurd place inPoll.2
  | @reset i entry ring place found valid =>
      have none := known found
      exact set none
  | pushed place here more | filled place here more =>
      exact absurd more (clearing.no_record (by rw [place]; rfl) here)
  | drained place here more => exact absurd more (clearing.no_record (by rw [place]; rfl) here)
  | popped place entries =>
      rw [clearing.no_entry] at entries
      cases entries
  | @returned left caller => cases caller <;> exact clearing.unread
  | drainCommitted place here => exact set rfl
  | @reaped i entry ring place found valid =>
      have none := known found
      rw [killOrphan_eq found valid]
      exact set none
  | committed place found => exact set rfl
  | _ => exact clearing.unread

theorem ahead_step (clearing : engine.Clearing size) (std : StdSort) (inPoll : engine.InPoll) :
    ∀ ring ∈ (engine.step std true).shared.ringMap, ∃ k,
      (engine.step std true).pc.Ahead k ∧ (engine.step std true).ringAt k = some ring := by
  have shape := clearing.sweeping.deserted.sound.tracked.shape std true
  obtain ⟨next, stepped⟩ : ∃ next, next = engine.step std true := ⟨_, rfl⟩
  rw [← stepped] at shape ⊢
  have beyond {i : Nat} (past : engine.index[i]? = none) (k : Nat) (ring : RingId) (ahead : i ≤ k)
      (indexed : engine.ringAt k = some ring) : False := by
    obtain ⟨entry, found, -⟩ := ringAt_eq_some.mp indexed
    have inside := (List.getElem?_eq_some_iff.mp found).1
    have outside := List.getElem?_eq_none_iff.mp past
    omega
  rcases shape.registers inPoll.2 with same | ⟨i, entry, owner, place, found, valid, rfl⟩
  · refine clearing.ahead_kept same fun k ring ahead indexed => ?_
    cases shape with
    | polled place => exact absurd place inPoll.1
    | unlocked place | rebuilt place => exact absurd place inPoll.2
    | @skipped i entry place found invalid =>
        rw [place] at ahead
        refine Nat.lt_of_le_of_ne ahead ?_
        rintro rfl
        rw [ringAt, found, Option.bind_some, invalid] at indexed
        cases indexed
    | @exhausted i place past disabled | @flushing i place past disabled =>
        rw [place] at ahead
        exact (beyond past k ring ahead indexed).elim
    | @reset i entry ring place found valid =>
        rw [place] at ahead
        rw [goto]
        dsimp only
        split
        · exact ahead
        · exact ahead
    | pushed place here more | filled place here more | drained place here more =>
        exact absurd more (clearing.no_record (by rw [place]; rfl) here)
    | popped place entries =>
        rw [clearing.no_entry] at entries
        cases entries
    | @returned left caller place past =>
        rw [place] at ahead
        cases caller with
        | full => exact ahead
        | final => exact ahead
    | walked place | drainCommitted place | orphaned place | emptied place | committed place
    | untouched place | settled place | finished place =>
        rw [place] at ahead
        exact ahead
    | @passedOver i place =>
        have halted : (engine.goto (.scan (i + 1))).pc = (engine.step std true).pc := by rw [stepped]
        cases at' : engine.pc with
        | orphan j =>
            obtain ⟨owner, next⟩ := clearing.orphan std at'
            rw [next] at halted
            cases halted
        | empty j =>
            rw [clearing.empty std at'] at halted
            cases halted
        | kill j =>
            obtain ⟨owner, found⟩ := clearing.sweeping.deserted.sound.tracked.reaping j
              (by rw [at']; rfl)
            obtain ⟨entry, read, valid⟩ := ringAt_eq_some.mp found
            rw [step, at'] at halted
            dsimp only at halted
            rw [killOrphan_eq read valid] at halted
            cases halted
        | _ => exact absurd place (by rw [at']; exact id)
    | @reaped i entry owner place found valid =>
        have inside := (List.getElem?_eq_some_iff.mp found).1
        have kept := (congrFun same.ringAt i).trans (ringAt_eq_some.mpr ⟨entry, found, valid⟩)
        rw [killOrphan_eq found valid, ringAt, setEntry, log, List.getElem?_set_self inside] at kept
        cases kept
    | @released i owner place =>
        rw [place] at ahead
        exact ahead
  · intro ring member
    obtain ⟨k, ahead, indexed⟩ := clearing.ahead ring (shape.mapped.2 ring member)
    obtain ⟨apart, kept⟩ := killOrphan_others found valid member indexed
    rw [place] at ahead
    refine ⟨k, ?_, kept⟩
    rw [killOrphan_eq found valid]
    exact Nat.lt_of_le_of_ne ahead apart

theorem step (large : 2 ≤ size) (clearing : engine.Clearing size) (std : StdSort)
    (inPoll : engine.InPoll) : (engine.step std true).Clearing size := by
  have shape := clearing.sweeping.deserted.sound.tracked.shape std true
  exact ⟨clearing.sweeping.step large std inPoll,
    Nat.le_zero.mp (shape.backlog_le.trans clearing.nothing.le), clearing.unread_step shape inPoll,
    clearing.ahead_step std inPoll⟩

end Clearing

/-- One poll with no client around. -/
theorem sweeps {size reserve : Nat} {start : Engine} (large : 2 ≤ size)
    (deserted : engine.Deserted) (spared : Spared start engine) (std : StdSort)
    (idle : engine.pc = .idle) (roomy : engine.tsoDisabled = false → engine.Roomy size)
    (prepared : engine.Prepared size reserve) :
    ∃ steps, (engine.drive std steps).Sweeping size reserve ∧
      Spared start (engine.drive std steps) ∧ (engine.drive std steps).pc = .idle ∧
      (engine.drive std steps).pollCount = engine.pollCount + 1 := by
  obtain ⟨first, opened⟩ := opens large deserted std idle roomy prepared
  obtain ⟨second, ⟨sweeping, spared⟩, rests, count⟩ := @poll_keeps (engine.drive std first)
    (fun state => state.Sweeping size reserve ∧ Spared start state) std
    (fun state kept => kept.1.deserted.sound)
    (fun state kept inPoll => ⟨kept.1.step large std inPoll,
      kept.2.step kept.1 (kept.1.deserted.sound.tracked.shape std true) inPoll⟩)
    ⟨opened.sweeping, opened.spared start spared⟩
    (by rw [opened.place]; exact fun other => by cases other)
  refine ⟨first + second, ?_⟩
  rw [drive_add]
  exact ⟨sweeping, spared, rests, count.trans opened.pollCount⟩

theorem backlog_of_reduced {size : Nat} (sweeping : engine.Sweeping size 0) (idle : engine.pc = .idle) :
    engine.backlog = 0 := by
  have due := sweeping.due
  rw [idle] at due
  cases mode : engine.tsoDisabled with
  | true => exact due.1 mode
  | false => exact Nat.le_zero.mp (due.2 mode).1

/-- With nothing owed, the next poll drops every ring. -/
theorem clears {size : Nat} {start : Engine} (large : 2 ≤ size) (deserted : engine.Deserted)
    (spared : Spared start engine) (std : StdSort) (idle : engine.pc = .idle)
    (roomy : engine.tsoDisabled = false → engine.Roomy size) (nothing : engine.backlog = 0) :
    ∃ steps, (engine.drive std steps).Sweeping size 0 ∧ Spared start (engine.drive std steps) ∧
      (engine.drive std steps).pc = .idle ∧ (engine.drive std steps).shared.ringMap = [] ∧
      (engine.drive std steps).pollCount = engine.pollCount + 1 := by
  obtain ⟨first, opened⟩ := @opens engine size 0 large deserted std idle roomy
    fun _ => .inr (by rw [nothing]; exact ⟨Nat.zero_le _, Nat.zero_le _⟩)
  have outside : (engine.drive std first).pc ≠ .rebuild := by
    rw [opened.place]
    exact fun other => by cases other
  have clearing : (engine.drive std first).Clearing size := by
    refine ⟨opened.sweeping, opened.backlog.trans nothing, fun entry member => ?_,
      fun ring member => ?_⟩
    · obtain ⟨i, found⟩ := List.getElem?_of_mem member
      refine opened.sweeping.deserted.sound.tracked.unscanned found fun scanned => ?_
      rw [opened.place] at scanned
      exact Nat.not_lt_zero i scanned
    · obtain ⟨k, indexed⟩ := opened.sweeping.covered
        (by rw [opened.place]; exact fun other => by cases other) ring member
      exact ⟨k, by rw [opened.place]; exact Nat.zero_le k, indexed⟩
  obtain ⟨second, ⟨cleared, spared⟩, rests, count⟩ := @poll_keeps (engine.drive std first)
    (fun state => state.Clearing size ∧ Spared start state) std
    (fun state kept => kept.1.sweeping.deserted.sound)
    (fun state kept inPoll => ⟨kept.1.step large std inPoll, kept.2.step kept.1.sweeping
      (kept.1.sweeping.deserted.sound.tracked.shape std true) inPoll⟩)
    ⟨clearing, opened.spared start spared⟩ outside
  refine ⟨first + second, ?_⟩
  rw [drive_add]
  refine ⟨cleared.sweeping, spared, rests, List.eq_nil_iff_forall_not_mem.mpr fun ring member => ?_,
    count.trans opened.pollCount⟩
  obtain ⟨k, ahead, -⟩ := cleared.ahead ring member
  rw [rests] at ahead
  exact ahead

/-- Without registered rings, the next poll is the last. -/
theorem drains {size : Nat} {start : Engine} (large : 2 ≤ size) (sweeping : engine.Sweeping size 0)
    (spared : Spared start engine) (std : StdSort) (idle : engine.pc = .idle)
    (ringMap : engine.shared.ringMap = []) :
    ∃ steps, (engine.drive std steps).Sweeping size 0 ∧ Spared start (engine.drive std steps) ∧
      (engine.drive std steps).drained ∧ (engine.drive std steps).shared.ringMap = [] ∧
      (engine.drive std steps).pollCount = engine.pollCount + 1 := by
  have nothing := backlog_of_reduced sweeping idle
  obtain ⟨first, opened⟩ := @opens engine size 0 large sweeping.deserted std idle
    sweeping.roomy fun _ => .inr (by rw [nothing]; exact ⟨Nat.zero_le _, Nat.zero_le _⟩)
  have unlisted : (engine.drive std first).shared.ringMap = [] := opened.ringMap.trans ringMap
  have index : (engine.drive std first).index = [] := by
    refine List.eq_nil_iff_forall_not_mem.mpr fun entry member => ?_
    have deserted := opened.sweeping.deserted
    obtain ⟨i, found⟩ := List.getElem?_of_mem member
    cases valid : entry.ring with
    | none => exact deserted.whole opened.clean (List.mem_map.mpr ⟨entry, member, valid⟩)
    | some ring =>
        have listed := deserted.sound.registered.mapped i ring (ringAt_eq_some.mpr ⟨entry, found, valid⟩)
        rw [unlisted] at listed
        cases listed
  obtain ⟨second, ⟨swept, spared, index, clean, unlisted⟩, rests, count⟩ :=
    @poll_keeps (engine.drive std first)
    (fun state => state.Sweeping size 0 ∧ Spared start state ∧ state.index = [] ∧
      state.shared.dirty = false ∧ state.shared.ringMap = []) std
    (fun state kept => kept.1.deserted.sound)
    (fun state kept inPoll => by
      obtain ⟨sweeping, spared, index, clean, unlisted⟩ := kept
      have shape := sweeping.deserted.sound.tracked.shape std true
      rcases shape.registers inPoll.2 with same | ⟨i, entry, ring, -, found, -, -⟩
      · have rings := same.rings
        rw [index] at rings
        exact ⟨sweeping.step large std inPoll, spared.step sweeping shape inPoll,
          List.map_eq_nil_iff.mp rings, same.dirty.trans clean, same.ringMap.trans unlisted⟩
      · rw [index] at found
        cases found)
    ⟨opened.sweeping, opened.spared start spared, index, opened.clean, unlisted⟩
    (by rw [opened.place]; exact fun other => by cases other)
  refine ⟨first + second, ?_⟩
  rw [drive_add]
  exact ⟨swept, spared, drained_iff.mpr ⟨rests, clean, index⟩, unlisted, count.trans opened.pollCount⟩

/-! ## The end of an engine -/

theorem client_dirty {before after : Shared} (client : Shared.ClientStep before after)
    (dirty : before.dirty = true) : after.dirty = true := by
  cases client with
  | flags | wrote | held | released | adopted | addedNamed => exact dirty
  | marked | addedRing => rfl
  | @pushed target _ next =>
      rcases before.pushCommit_cases target next with result | ⟨_, result⟩ | ⟨_, result⟩ <;>
        (rw [result]; exact dirty)

theorem after_whole (std : StdSort) (capacity : UInt32) (tsoDisabled : Bool) (timesource : UInt64)
    {rings : RingId → RingObj} (fresh : ∀ ring, (rings ring).Fresh) (actions : List Action) :
    ((create capacity tsoDisabled timesource rings).after std actions).Whole :=
  @after_induction std (fun _ => True) Whole (create capacity tsoDisabled timesource rings)
    (create_sound capacity tsoDisabled timesource fresh) (fun _ _ _ _ => trivial)
    (fun _ _ _ _ _ => trivial) (fun _ _ => List.not_mem_nil)
    (fun engine op _ _ whole clean => by
      refine whole ?_
      cases dirty : engine.shared.dirty with
      | false => rfl
      | true => exact (client_dirty (engine.shared.apply_step op) dirty).symm.trans clean)
    (fun _ _ _ _ shape _ whole => shape.whole whole) actions trivial

theorem drive_keeps (sound : engine.Sound) (std : StdSort) (steps : Nat) (ring : RingId) :
    (engine.drive std steps).shared.committed ring = engine.shared.committed ring ∧
      ((engine.drive std steps).obj ring).clients = (engine.obj ring).clients := by
  induction steps generalizing engine with
  | zero => exact ⟨rfl, rfl⟩
  | succ steps ih =>
      have shape := sound.tracked.shape std true
      obtain ⟨committed, clients⟩ := ih (sound.act std (.engine true))
      rw [drive_succ]
      exact ⟨committed.trans (shape.committed_eq ring), clients.trans (shape.objs ring).clients⟩

theorem Deserted.ends {size : Nat} (large : 2 ≤ size) (deserted : engine.Deserted) (std : StdSort)
    (idle : engine.pc = .idle) (roomy : engine.tsoDisabled = false → engine.Roomy size) :
    ∃ steps, (engine.drive std steps).drained ∧ (engine.drive std steps).shared.ringMap = [] ∧
      (engine.drive std steps).pollCount = engine.pollCount + 4 ∧
      ∀ ring ∈ engine.shared.ringMap,
        (engine.drive std steps).shared.flushed ring = engine.shared.committed ring ∧
        ((engine.drive std steps).obj ring).refcnt = 0 := by
  obtain ⟨first, swept, spared, rests, polls₁⟩ := @sweeps engine size (size / 8) engine large
    deserted (fun _ member => .inl member) std idle roomy fun _ => .inl rfl
  have reduced := swept.due
  rw [rests] at reduced
  obtain ⟨second, swept, spared, rests, polls₂⟩ := @sweeps _ size 0 engine large swept.deserted
    spared std rests swept.roomy fun enabled => .inr (reduced.2 enabled).symm
  obtain ⟨third, swept, spared, rests, unlisted, polls₃⟩ := clears large swept.deserted spared std
    rests swept.roomy (backlog_of_reduced swept rests)
  obtain ⟨fourth, swept, spared, drained, unlisted, polls₄⟩ := drains large swept spared std rests
    unlisted
  have joined : engine.drive std (first + second + third + fourth) =
      (((engine.drive std first).drive std second).drive std third).drive std fourth := by
    rw [drive_add, drive_add, drive_add]
  rw [← joined] at swept spared drained unlisted polls₄
  refine ⟨first + second + third + fourth, drained, unlisted, by omega, fun ring member => ?_⟩
  obtain ⟨committed, clients⟩ := drive_keeps deserted.sound std (first + second + third + fourth) ring
  have gone : ring ∉ (engine.drive std (first + second + third + fourth)).shared.ringMap := by
    rw [unlisted]
    exact List.not_mem_nil
  refine ⟨?_, ?_⟩
  · rw [← committed]
    exact (swept.deserted.delivering ring).delivered.eq_of_length_le
      ((spared ring member).resolve_left gone)
  · rw [swept.deserted.sound.registered.refs ring, clients, deserted.alone ring member, Shared.owned,
      if_neg gone, (drained_iff.mp drained).1]
    rfl

/-- The client posts two records and lets go of its ring before the engine looks. -/
def leavingRun : List Action :=
  [.client (.addNamed 0), .client (.markDirty 0)] ++ postAt 5 ++ postAt 7 ++ [.client (.release 0)]

end Engine

end Hogl.Polling
