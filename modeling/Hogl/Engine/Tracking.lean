import Hogl.Engine.Registry

namespace Hogl.Polling

open Hogl.Data Hogl.Ring

/-! # The TSO buffer, the iterators and the rings they point into

Nothing here depends on timestamps: every slot that the buffer, an iterator
or `lastrec` names holds a record that is committed and not yet consumed.
-/

/-- Index entry `i` has been reset in the running poll. -/
def Pc.Scanned : Pc → Nat → Prop
  | .scan n, i => i < n
  | .walk n _, i | .orphan n, i | .empty n, i | .kill n, i | .release n _, i => i ≤ n
  | .doFlush _ (.full n _), i => i ≤ n
  | .doFlush _ .final, _ => True
  | .commit n, i => n ≤ i
  | _, _ => False

/-- The iterator of index entry `i` is in use. -/
def Pc.Walking : Pc → Nat → Prop
  | .walk n _, i | .doFlush _ (.full n _), i | .drain n, i => i = n
  | _, _ => False

/-- Index entry `i` is being tested for an orphan. -/
def Pc.Reaping : Pc → Nat → Prop
  | .orphan n, i | .empty n, i | .kill n, i => i = n
  | _, _ => False

/-- Where the TSO buffer may hold entries. -/
def Pc.buffering : Pc → Bool
  | .scan _ | .walk _ _ | .doFlush _ _ | .orphan _ | .empty _ | .kill _ | .release _ _ => true
  | _ => false

/-- The places of `process_rings_tso` alone. -/
def Pc.timed : Pc → Bool
  | .walk _ _ | .doFlush _ _ | .commit _ => true
  | _ => false

namespace Shared

variable {shared : Shared} {ring : RingId}

/-- The number of records of a ring that its committed head has passed. -/
def popped (shared : Shared) (ring : RingId) : Nat :=
  (shared.committed ring).length - (shared.rings ring).ring.size.toNat

/-- `slot` holds a committed record that has not been consumed. -/
def Within (shared : Shared) (ring : RingId) (slot : UInt32) : Prop :=
  ∃ position, shared.popped ring ≤ position ∧ position < (shared.committed ring).length ∧
    slot = slotOf (shared.rings ring).ring.capacity position

theorem popped_eq {consumed : Nat}
    (spans : (shared.rings ring).ring.Spans consumed (shared.committed ring).length) :
    shared.popped ring = consumed := by
  have ordered := spans.ordered
  rw [popped, spans.size_toNat]
  omega

def Spanned (shared : Shared) (ring : RingId) : Prop :=
  (shared.rings ring).ring.Spans (shared.popped ring) (shared.committed ring).length

theorem Spanned.of {consumed : Nat}
    (spans : (shared.rings ring).ring.Spans consumed (shared.committed ring).length) :
    shared.Spanned ring := by
  rw [Spanned, popped_eq spans]
  exact spans

theorem ClientStep.popped {after : Shared} (client : ClientStep shared after)
    (spanned : shared.Spanned ring) : after.popped ring = shared.popped ring :=
  popped_eq (client.spans spanned)

theorem ClientStep.spanned {after : Shared} (client : ClientStep shared after)
    (spanned : shared.Spanned ring) : after.Spanned ring := .of (client.spans spanned)

theorem ClientStep.within {after : Shared} {slot : UInt32} (client : ClientStep shared after)
    (spanned : shared.Spanned ring) (within : shared.Within ring slot) :
    after.Within ring slot := by
  obtain ⟨position, lower, upper, rfl⟩ := within
  have longer := (client.committed_prefix ring).length_le
  refine ⟨position, ?_, by omega, ?_⟩
  · rw [client.popped spanned]
    exact lower
  · rw [(client.same ring).capacity]

theorem not_within_of_empty {slot : UInt32} (spanned : shared.Spanned ring)
    (empty : (shared.rings ring).ring.empty = true) : ¬ shared.Within ring slot := by
  intro ⟨position, lower, upper, _⟩
  have all := spanned.empty_iff.mp empty
  omega

/-- No record was committed and no index moved. -/
structure Steady (before after : Shared) : Prop where
  committed : ∀ ring, after.committed ring = before.committed ring
  capacity : ∀ ring, (after.rings ring).ring.capacity = (before.rings ring).ring.capacity
  head : ∀ ring, (after.rings ring).ring.head = (before.rings ring).ring.head
  tail : ∀ ring, (after.rings ring).ring.tail = (before.rings ring).ring.tail

namespace Steady

variable {after : Shared}

theorem refl (shared : Shared) : Steady shared shared :=
  ⟨fun _ => rfl, fun _ => rfl, fun _ => rfl, fun _ => rfl⟩

theorem trans {first second third : Shared} (left : Steady first second)
    (right : Steady second third) : Steady first third :=
  ⟨fun ring => (right.committed ring).trans (left.committed ring),
    fun ring => (right.capacity ring).trans (left.capacity ring),
    fun ring => (right.head ring).trans (left.head ring),
    fun ring => (right.tail ring).trans (left.tail ring)⟩

theorem log {event : Event} (byEngine : event.byClient = false) :
    Steady shared (shared.log event) := by
  refine ⟨fun ring => ?_, fun _ => rfl, fun _ => rfl, fun _ => rfl⟩
  apply committed_log
  rintro record rfl
  cases byEngine

theorem popped (steady : Steady shared after) (ring : RingId) :
    after.popped ring = shared.popped ring := by
  rw [Shared.popped, Shared.popped, steady.committed, Ringbuf.size, Ringbuf.size, steady.capacity,
    steady.head, steady.tail]

theorem spanned (steady : Steady shared after) (spanned : shared.Spanned ring) :
    after.Spanned ring := by
  have committed := steady.committed ring
  have capacity := steady.capacity ring
  refine ⟨capacity ▸ spanned.isMask, ?_, ?_, ?_, ?_⟩
  · rw [steady.popped, committed]
    exact spanned.ordered
  · rw [steady.popped, committed, capacity]
    exact spanned.bounded
  · rw [steady.tail, capacity, committed]
    exact spanned.tail
  · rw [steady.head, capacity, steady.popped]
    exact spanned.head

theorem within {slot : UInt32} (steady : Steady shared after) (within : shared.Within ring slot) :
    after.Within ring slot := by
  rw [Within, steady.popped, steady.committed, steady.capacity]
  exact within

end Steady

theorem setRing_elsewhere {target : RingId} (obj : RingObj) (different : ring ≠ target) :
    (shared.setRing target obj).rings ring = shared.rings ring := by
  rw [setRing_rings, if_neg different]

theorem popped_elsewhere {target : RingId} (obj : RingObj) (different : ring ≠ target) :
    (shared.setRing target obj).popped ring = shared.popped ring := by
  rw [popped, popped, setRing_elsewhere obj different]
  rfl

theorem within_elsewhere {target : RingId} (obj : RingObj) (different : ring ≠ target)
    {slot : UInt32} (within : shared.Within ring slot) :
    (shared.setRing target obj).Within ring slot := by
  rw [Within, popped_elsewhere obj different, setRing_elsewhere obj different]
  exact within

/-- Moving a head to just before `position` consumes what lies before it. -/
theorem spans_commitHead {head : UInt32} {position : Nat} (spanned : shared.Spanned ring)
    (place : head = slotOf (shared.rings ring).ring.capacity
      (position + (shared.rings ring).ring.capacity.toNat))
    (lower : shared.popped ring ≤ position) (upper : position ≤ (shared.committed ring).length) :
    ((shared.rings ring).ring.commitHead head).Spans position (shared.committed ring).length := by
  rw [place]
  exact Ringbuf.Spans.commitHead spanned lower upper

end Shared

namespace Engine

variable {engine : Engine}

theorem Handed.steady {after : Engine} {ring : RingId} {slot : UInt32}
    (handed : Handed engine after ring slot) : Shared.Steady engine.shared after.shared := by
  refine ⟨handed.committed, fun other => (handed.objs other).capacity, fun other => ?_,
    fun other => (handed.objs other).tail⟩
  by_cases same : other = ring
  · subst same
    obtain ⟨value, stored, -⟩ := handed.stored
    exact congrArg (·.head) stored
  · exact congrArg (·.head) (handed.others other same)

theorem markTsoFull_steady (engine : Engine) :
    Shared.Steady engine.shared engine.markTsoFull.shared := by
  rcases engine.markTsoFull_cases with same | ⟨event, injected, same⟩ | same <;> rw [same]
  · exact .refl _
  · exact .log (Event.byClient_of_minor (Event.minor_of_injected injected))
  · exact .log rfl

structure Tracked (engine : Engine) : Prop where
  spanned : ∀ ring, engine.shared.Spanned ring
  tagged : ∀ te ∈ engine.tso.entries, ∃ ring, engine.ringAt te.tag = some ring ∧
    engine.shared.Within ring te.slot
  lastrec : ∀ (i : Nat) (entry : IndexEntry) (slot : UInt32), engine.index[i]? = some entry →
    entry.lastrec = some slot → ∃ ring, entry.ring = some ring ∧ engine.shared.Within ring slot
  tagScanned : ∀ te ∈ engine.tso.entries, engine.pc.Scanned te.tag
  recScanned : ∀ (i : Nat) (entry : IndexEntry), engine.index[i]? = some entry →
    entry.lastrec ≠ none → engine.pc.Scanned i
  walking : ∀ i, engine.pc.Walking i → ∃ entry ring, engine.index[i]? = some entry ∧
    entry.ring = some ring ∧ ∃ passed limit,
      entry.pit.Stands (engine.obj ring).ring.capacity passed limit ∧
      engine.shared.popped ring ≤ passed ∧ limit ≤ (engine.shared.committed ring).length
  reaping : ∀ i, engine.pc.Reaping i → ∃ ring, engine.ringAt i = some ring
  clean : ∀ i, engine.pc = .kill i → (∀ te ∈ engine.tso.entries, te.tag ≠ i) ∧
    ∀ entry, engine.index[i]? = some entry → entry.lastrec = none
  buffered : engine.pc.buffering = false → engine.tso.entries = []
  notso : engine.tsoDisabled = true → engine.tso.entries = [] ∧
    (∀ entry ∈ engine.index, entry.lastrec = none) ∧ engine.pc.timed = false
  drains : ∀ i, engine.pc = .drain i → engine.tsoDisabled = true
  running : engine.pc ≠ .halted

namespace Tracked

theorem client {shared : Shared} (tracked : engine.Tracked)
    (step : Shared.ClientStep engine.shared shared) : Tracked { engine with shared } where
  spanned ring := step.spanned (tracked.spanned ring)
  tagged te member := by
    obtain ⟨ring, found, within⟩ := tracked.tagged te member
    exact ⟨ring, found, step.within (tracked.spanned ring) within⟩
  lastrec i entry slot found last := by
    obtain ⟨ring, valid, within⟩ := tracked.lastrec i entry slot found last
    exact ⟨ring, valid, step.within (tracked.spanned ring) within⟩
  tagScanned := tracked.tagScanned
  recScanned := tracked.recScanned
  walking i walking := by
    obtain ⟨entry, ring, found, valid, passed, limit, stands, lower, upper⟩ :=
      tracked.walking i walking
    have longer := (step.committed_prefix ring).length_le
    refine ⟨entry, ring, found, valid, passed, limit, ?_, ?_, by dsimp only; omega⟩
    · rw [obj, (step.same ring).capacity]
      exact stands
    · rw [step.popped (tracked.spanned ring)]
      exact lower
  reaping := tracked.reaping
  clean := tracked.clean
  buffered := tracked.buffered
  notso := tracked.notso
  drains := tracked.drains
  running := tracked.running

/-- An iterator stands where it stood as long as its entry keeps it. -/
theorem walkers {after : Engine} (tracked : engine.Tracked)
    (steady : Shared.Steady engine.shared after.shared)
    (walking : ∀ i, after.pc.Walking i → engine.pc.Walking i)
    (kept : ∀ (i : Nat) (old : IndexEntry), engine.index[i]? = some old →
      ∃ entry, after.index[i]? = some entry ∧ entry.ring = old.ring ∧ entry.pit = old.pit)
    (i : Nat) (walks : after.pc.Walking i) : ∃ entry ring, after.index[i]? = some entry ∧
      entry.ring = some ring ∧ ∃ passed limit,
        entry.pit.Stands (after.obj ring).ring.capacity passed limit ∧
        after.shared.popped ring ≤ passed ∧ limit ≤ (after.shared.committed ring).length := by
  obtain ⟨old, ring, found, valid, passed, limit, stands, lower, upper⟩ :=
    tracked.walking i (walking i walks)
  obtain ⟨entry, read, ringEq, pitEq⟩ := kept i old found
  refine ⟨entry, ring, read, ringEq.trans valid, passed, limit, ?_, ?_, ?_⟩
  · rw [obj, steady.capacity, pitEq]
    exact stands
  · rw [steady.popped]
    exact lower
  · rw [steady.committed]
    exact upper

/-- A step that leaves the index alone and adds nothing to the buffer has to
account for its new place only. -/
theorem moveInto {after : Engine} (tracked : engine.Tracked)
    (steady : Shared.Steady engine.shared after.shared)
    (index : after.index = engine.index)
    (tso : ∀ te ∈ after.tso.entries, te ∈ engine.tso.entries)
    (mode : after.tsoDisabled = engine.tsoDisabled)
    (tagScanned : ∀ te ∈ engine.tso.entries, after.pc.Scanned te.tag)
    (recScanned : ∀ (i : Nat) (entry : IndexEntry), engine.index[i]? = some entry →
      entry.lastrec ≠ none → after.pc.Scanned i)
    (walking : ∀ i, after.pc.Walking i → engine.pc.Walking i)
    (reaping : ∀ i, after.pc.Reaping i → ∃ ring, engine.ringAt i = some ring)
    (clean : ∀ i, after.pc = .kill i → (∀ te ∈ engine.tso.entries, te.tag ≠ i) ∧
      ∀ entry, engine.index[i]? = some entry → entry.lastrec = none)
    (buffered : after.pc.buffering = false → after.tso.entries = [])
    (timed : engine.tsoDisabled = true → after.pc.timed = false)
    (drains : ∀ i, after.pc = .drain i → engine.tsoDisabled = true)
    (running : after.pc ≠ .halted) : after.Tracked := by
  have ringAt : after.ringAt = engine.ringAt := by
    funext i
    rw [Engine.ringAt, index, Engine.ringAt]
  refine ⟨fun ring => steady.spanned (tracked.spanned ring), ?_, ?_, ?_, ?_, ?_, ?_, ?_, buffered,
    ?_, ?_, running⟩
  · rw [ringAt]
    intro te member
    obtain ⟨ring, found, within⟩ := tracked.tagged te (tso te member)
    exact ⟨ring, found, steady.within within⟩
  · rw [index]
    intro i entry slot found last
    obtain ⟨ring, valid, within⟩ := tracked.lastrec i entry slot found last
    exact ⟨ring, valid, steady.within within⟩
  · exact fun te member => tagScanned te (tso te member)
  · rw [index]
    exact recScanned
  · exact tracked.walkers steady walking fun i old found =>
      ⟨old, by rw [index]; exact found, rfl, rfl⟩
  · rw [ringAt]
    exact reaping
  · rw [index]
    intro i place
    exact ⟨fun te member => (clean i place).1 te (tso te member), (clean i place).2⟩
  · rw [mode, index]
    intro disabled
    obtain ⟨empty, settled, -⟩ := tracked.notso disabled
    refine ⟨List.eq_nil_iff_forall_not_mem.mpr fun te member => ?_, settled, timed disabled⟩
    have old := tso te member
    rw [empty] at old
    exact List.not_mem_nil old
  · rw [mode]
    exact drains

theorem move {after : Engine} (tracked : engine.Tracked)
    (steady : Shared.Steady engine.shared after.shared)
    (index : after.index = engine.index) (tso : after.tso.entries = engine.tso.entries)
    (mode : after.tsoDisabled = engine.tsoDisabled)
    (tagScanned : ∀ te ∈ engine.tso.entries, after.pc.Scanned te.tag)
    (recScanned : ∀ (i : Nat) (entry : IndexEntry), engine.index[i]? = some entry →
      entry.lastrec ≠ none → after.pc.Scanned i)
    (walking : ∀ i, after.pc.Walking i → engine.pc.Walking i)
    (reaping : ∀ i, after.pc.Reaping i → ∃ ring, engine.ringAt i = some ring)
    (clean : ∀ i, after.pc = .kill i → (∀ te ∈ engine.tso.entries, te.tag ≠ i) ∧
      ∀ entry, engine.index[i]? = some entry → entry.lastrec = none)
    (buffered : after.pc.buffering = false → engine.tso.entries = [])
    (timed : engine.tsoDisabled = true → after.pc.timed = false)
    (drains : ∀ i, after.pc = .drain i → engine.tsoDisabled = true)
    (running : after.pc ≠ .halted) : after.Tracked :=
  tracked.moveInto steady index (fun _ member => tso ▸ member) mode tagScanned recScanned walking
    reaping clean (fun outside => tso.trans (buffered outside)) timed drains running

/-- Nothing was scanned, so nothing is buffered or waits for its commit. -/
theorem unscanned {i : Nat} {entry : IndexEntry} (tracked : engine.Tracked)
    (found : engine.index[i]? = some entry) (fresh : ¬ engine.pc.Scanned i) :
    entry.lastrec = none := by
  by_contra pending
  exact fresh (tracked.recScanned i entry found pending)

/-- Only an engine that orders its records gets to the places where it does. -/
theorem enabled {place : Pc} (tracked : engine.Tracked) (here : engine.pc = place)
    (timed : place.timed = true) : engine.tsoDisabled ≠ true := by
  intro disabled
  have untimed := (tracked.notso disabled).2.2
  rw [here, timed] at untimed
  cases untimed

theorem idleStep (tracked : engine.Tracked) (place : engine.pc = .idle) :
    engine.processRings.Tracked := by
  have nothing : engine.tso.entries = [] := tracked.buffered (by rw [place]; rfl)
  have goes : engine.processRings.pc = .rebuild ∨ engine.processRings.pc = .scan 0 := by
    simp only [processRings]
    split
    · exact .inl rfl
    · exact .inr rfl
  refine tracked.move (.log rfl) rfl rfl rfl ?_ ?_ ?_ ?_ ?_ (fun _ => nothing) ?_ ?_ ?_
  · rw [nothing]
    exact List.forall_mem_nil _
  · intro i entry found pending
    have scanned := tracked.recScanned i entry found pending
    rw [place] at scanned
    exact scanned.elim
  all_goals
    rcases goes with goes | goes <;>
      simp [goes, Pc.Walking, Pc.Reaping, Pc.timed]

theorem finishStep (tracked : engine.Tracked) (place : engine.pc = .finish) :
    (engine.goto .idle).Tracked := by
  have nothing : engine.tso.entries = [] := tracked.buffered (by rw [place]; rfl)
  refine tracked.move (.refl _) rfl rfl rfl ?_ ?_ ?_ ?_ ?_ (fun _ => nothing) ?_ ?_ ?_
  · rw [nothing]
    exact List.forall_mem_nil _
  · intro i entry found pending
    have scanned := tracked.recScanned i entry found pending
    rw [place] at scanned
    exact scanned.elim
  all_goals simp [goto, Pc.Walking, Pc.Reaping, Pc.timed]

theorem rebuildStep (std : StdSort) (tracked : engine.Tracked) (place : engine.pc = .rebuild) :
    ((engine.rebuildRingIndex std).goto (.scan 0)).Tracked := by
  have nothing : engine.tso.entries = [] := tracked.buffered (by rw [place]; rfl)
  have steady : Shared.Steady engine.shared
      ((engine.rebuildRingIndex std).goto (.scan 0)).shared :=
    (Shared.Steady.log (show Event.indexed.byClient = false from rfl)).trans
      ⟨fun _ => rfl, fun _ => rfl, fun _ => rfl, fun _ => rfl⟩
  have fresh (entry : IndexEntry) (member : entry ∈ (engine.rebuildRingIndex std).index) :
      entry.lastrec = none := by
    obtain ⟨ring, -, rfl⟩ := mem_rebuild.mp member
    rfl
  have empty : ((engine.rebuildRingIndex std).goto (.scan 0)).tso.entries = [] := nothing
  refine ⟨fun ring => steady.spanned (tracked.spanned ring), ?_, ?_, ?_, ?_, ?_, ?_, ?_, ?_, ?_, ?_,
    ?_⟩
  · rw [empty]
    exact List.forall_mem_nil _
  · intro i entry slot found last
    rw [fresh entry (List.mem_of_getElem? found)] at last
    cases last
  · rw [empty]
    exact List.forall_mem_nil _
  · intro i entry found pending
    exact absurd (fresh entry (List.mem_of_getElem? found)) pending
  · intro i walks
    exact walks.elim
  · intro i reaps
    exact reaps.elim
  · intro i place
    cases place
  · intro _
    exact nothing
  · intro _
    exact ⟨nothing, fresh, rfl⟩
  · intro i place
    cases place
  · intro place
    cases place

/-- The mutex was taken; the poll runs with the index it has. -/
theorem unlockedStep (tracked : engine.Tracked) (place : engine.pc = .rebuild) :
    (engine.goto (.scan 0)).Tracked := by
  have nothing : engine.tso.entries = [] := tracked.buffered (by rw [place]; rfl)
  refine tracked.move (.refl _) rfl rfl rfl ?_ ?_ ?_ ?_ ?_ (fun _ => nothing) ?_ ?_ ?_
  · rw [nothing]
    exact List.forall_mem_nil _
  · intro i entry found pending
    have scanned := tracked.recScanned i entry found pending
    rw [place] at scanned
    exact scanned.elim
  all_goals simp [goto, Pc.Walking, Pc.Reaping, Pc.timed]

/-- What was scanned lies at or before the place the thread has reached. -/
theorem scanned_le {i : Nat} (tracked : engine.Tracked)
    (upTo : ∀ j, engine.pc.Scanned j → j ≤ i) :
    (∀ te ∈ engine.tso.entries, te.tag ≤ i) ∧
    ∀ (j : Nat) (entry : IndexEntry), engine.index[j]? = some entry → entry.lastrec ≠ none → j ≤ i :=
  ⟨fun te member => upTo _ (tracked.tagScanned te member),
    fun j entry found pending => upTo j (tracked.recScanned j entry found pending)⟩

theorem onward {after : Engine} {i : Nat} (tracked : engine.Tracked)
    (upTo : ∀ j, engine.pc.Scanned j → j ≤ i)
    (steady : Shared.Steady engine.shared after.shared)
    (index : after.index = engine.index) (tso : after.tso.entries = engine.tso.entries)
    (mode : after.tsoDisabled = engine.tsoDisabled) (place : after.pc = .scan (i + 1)) :
    after.Tracked := by
  obtain ⟨tags, recs⟩ := tracked.scanned_le upTo
  refine tracked.move steady index tso mode ?_ ?_ ?_ ?_ ?_ ?_ ?_ ?_ ?_ <;> rw [place]
  · exact fun te member => Nat.lt_succ_of_le (tags te member)
  · exact fun j entry found pending => Nat.lt_succ_of_le (recs j entry found pending)
  all_goals simp [Pc.Walking, Pc.Reaping, Pc.buffering, Pc.timed]

theorem orphanStep {i : Nat} (tracked : engine.Tracked) (place : engine.pc = .orphan i) :
    (engine.testOrphan i).Tracked := by
  have upTo (j : Nat) (scanned : engine.pc.Scanned j) : j ≤ i := by rwa [place] at scanned
  obtain ⟨tags, recs⟩ := tracked.scanned_le upTo
  obtain ⟨ring, at'⟩ := tracked.reaping i (by rw [place]; rfl)
  obtain ⟨entry, found, valid⟩ := ringAt_eq_some.mp at'
  rw [testOrphan, withRing_eq found valid]
  split
  · refine tracked.move (.log rfl) rfl rfl rfl tags recs (fun _ walks => walks.elim) ?_ ?_ ?_ ?_ ?_ ?_
    · rintro j rfl
      exact ⟨ring, at'⟩
    all_goals simp [goto, Pc.buffering, Pc.timed]
  · exact tracked.onward upTo (.refl _) rfl rfl rfl rfl

theorem emptyStep {i : Nat} (tracked : engine.Tracked) (place : engine.pc = .empty i) :
    (engine.testEmpty i).Tracked := by
  have upTo (j : Nat) (scanned : engine.pc.Scanned j) : j ≤ i := by rwa [place] at scanned
  obtain ⟨tags, recs⟩ := tracked.scanned_le upTo
  obtain ⟨ring, at'⟩ := tracked.reaping i (by rw [place]; rfl)
  obtain ⟨entry, found, valid⟩ := ringAt_eq_some.mp at'
  rw [testEmpty, withRing_eq found valid]
  split
  · rename_i empty
    have nothing (slot : UInt32) : ¬ engine.shared.Within ring slot :=
      Shared.not_within_of_empty (tracked.spanned ring) empty
    refine tracked.move (.refl _) rfl rfl rfl tags recs (fun _ walks => walks.elim) ?_ ?_ ?_ ?_ ?_ ?_
    · rintro j rfl
      exact ⟨ring, at'⟩
    · intro j same
      obtain rfl : i = j := Pc.kill.inj same
      constructor
      · rintro te member rfl
        obtain ⟨owner, tagged, within⟩ := tracked.tagged te member
        obtain rfl : ring = owner := Option.some.inj (at'.symm.trans tagged)
        exact nothing te.slot within
      · intro other read
        cases last : other.lastrec with
        | none => rfl
        | some slot =>
            obtain ⟨owner, owns, within⟩ := tracked.lastrec i other slot read last
            obtain rfl : entry = other := Option.some.inj (found.symm.trans read)
            obtain rfl : ring = owner := Option.some.inj (valid.symm.trans owns)
            exact absurd within (nothing slot)
    all_goals simp [goto, Pc.buffering, Pc.timed]
  · exact tracked.onward upTo (.refl _) rfl rfl rfl rfl

theorem releaseStep {i : Nat} {ring : RingId} (tracked : engine.Tracked)
    (place : engine.pc = .release i ring) : (engine.releaseOrphan i ring).Tracked := by
  have obj (other : RingId) : ((engine.releaseOrphan i ring).obj other).ring =
      (engine.obj other).ring := Shared.setRing_ring (by rfl) other
  refine tracked.onward (fun j scanned => by rwa [place] at scanned) ?_ rfl rfl rfl rfl
  exact ⟨fun _ => rfl, fun other => congrArg (·.capacity) (obj other),
    fun other => congrArg (·.head) (obj other), fun other => congrArg (·.tail) (obj other)⟩

theorem killStep {i : Nat} (tracked : engine.Tracked) (place : engine.pc = .kill i)
    (trylock : Bool) : (engine.killOrphan i trylock).Tracked := by
  have upTo (j : Nat) (scanned : engine.pc.Scanned j) : j ≤ i := by rwa [place] at scanned
  obtain ⟨tags, recs⟩ := tracked.scanned_le upTo
  obtain ⟨untagged, settled⟩ := tracked.clean i place
  cases trylock with
  | false => exact tracked.onward upTo (.refl _) rfl rfl rfl rfl
  | true =>
      obtain ⟨ring, at'⟩ := tracked.reaping i (by rw [place]; rfl)
      obtain ⟨entry, found, valid⟩ := ringAt_eq_some.mp at'
      rw [killOrphan_eq found valid]
      have steady : Shared.Steady engine.shared (engine.shared.log (.reaped ring)) := .log rfl
      have entries (j : Nat) (other : IndexEntry)
          (read : (engine.index.set i { entry with ring := none, pit := ⟨0, 0⟩ })[j]? = some other) :
          other.lastrec = none ∨ engine.index[j]? = some other := by
        rw [List.getElem?_set] at read
        split at read
        · split at read
          · cases read
            exact .inl (settled entry found)
          · cases read
        · exact .inr read
      refine ⟨?_, ?_, ?_, ?_, ?_, ?_, ?_, ?_, ?_, ?_, ?_, ?_⟩
      · exact fun other => (steady.trans ⟨fun _ => rfl, fun _ => rfl, fun _ => rfl,
          fun _ => rfl⟩).spanned (tracked.spanned other)
      · intro te member
        obtain ⟨owner, tagged, within⟩ := tracked.tagged te member
        refine ⟨owner, ?_, steady.within within⟩
        exact (ringAt_setEntry found { entry with ring := none, pit := ⟨0, 0⟩ } rfl te.tag).trans
          (by rw [if_neg (untagged te member), tagged])
      · intro j other slot read last
        rcases entries j other read with none | old
        · rw [none] at last
          cases last
        · obtain ⟨owner, owns, within⟩ := tracked.lastrec j other slot old last
          exact ⟨owner, owns, steady.within within⟩
      · exact tags
      · intro j other read pending
        rcases entries j other read with none | old
        · exact absurd none pending
        · exact recs j other old pending
      · exact fun _ walks => walks.elim
      · exact fun _ reaps => reaps.elim
      · intro j place
        cases place
      · intro buffering
        cases buffering
      · intro disabled
        obtain ⟨empty, all, -⟩ := tracked.notso disabled
        refine ⟨empty, ?_, rfl⟩
        intro other member
        obtain ⟨j, read⟩ := List.getElem?_of_mem member
        rcases entries j other read with none | old
        · exact none
        · exact all other (List.mem_of_getElem? old)
      · intro j place
        cases place
      · intro place
        cases place

/-- Committing an iterator of one ring changes nothing for the others. -/
theorem commitPit_spanned {i : Nat} {entry : IndexEntry} {ring : RingId} {pit : PopIterator}
    {position : Nat} (tracked : engine.Tracked)
    (place : pit.head = slotOf (engine.obj ring).ring.capacity
      (position + (engine.obj ring).ring.capacity.toNat))
    (lower : engine.shared.popped ring ≤ position)
    (upper : position ≤ (engine.shared.committed ring).length) :
    (engine.commitPit i entry ring pit).shared.popped ring = position ∧
    ∀ other, (engine.commitPit i entry ring pit).shared.Spanned other := by
  have spans := Shared.spans_commitHead (tracked.spanned ring) place lower upper
  have moved : ((engine.commitPit i entry ring pit).shared.rings ring).ring =
      (engine.obj ring).ring.commitHead pit.head := by
    rw [show (engine.commitPit i entry ring pit).shared.rings ring = _ from
      Shared.setRing_rings ring ring _, if_pos rfl]
    rfl
  have own : ((engine.commitPit i entry ring pit).shared.rings ring).ring.Spans position
      ((engine.commitPit i entry ring pit).shared.committed ring).length := by
    rw [moved]
    exact spans
  refine ⟨Shared.popped_eq own, fun other => ?_⟩
  by_cases same : other = ring
  · subst same
    exact .of own
  · have kept : (engine.commitPit i entry ring pit).shared.rings other =
        engine.shared.rings other := Shared.setRing_elsewhere _ same
    rw [Shared.Spanned, kept]
    rw [show (engine.commitPit i entry ring pit).shared.popped other = _ from
      Shared.popped_elsewhere _ same]
    exact tracked.spanned other

theorem commitStep {i : Nat} (tracked : engine.Tracked) (registered : engine.Registered)
    (place : engine.pc = .commit i) : (engine.commitRing i).Tracked := by
  have nothing : engine.tso.entries = [] := tracked.buffered (by rw [place]; rfl)
  have onward (j : Nat) (other : IndexEntry) (read : engine.index[j]? = some other)
      (pending : other.lastrec ≠ none) : i ≤ j := by
    have scanned := tracked.recScanned j other read pending
    rwa [place] at scanned
  have noTag (pc : Pc) : ∀ te ∈ engine.tso.entries, pc.Scanned te.tag := by
    rw [nothing]
    exact List.forall_mem_nil _
  cases found : engine.index[i]? with
  | none =>
      simp only [commitRing, found]
      refine tracked.move (.refl _) rfl rfl rfl (noTag _) ?_ ?_ ?_ ?_ (fun _ => nothing) ?_ ?_ ?_
      · intro j other read pending
        have inside := (List.getElem?_eq_some_iff.mp read).1
        have beyond := List.getElem?_eq_none_iff.mp found
        have later := onward j other read pending
        omega
      all_goals simp [goto, Pc.Walking, Pc.Reaping, Pc.timed]
  | some entry =>
      have skip (none : entry.lastrec = none) : (engine.goto (.commit (i + 1))).Tracked := by
        refine tracked.move (.refl _) rfl rfl rfl (noTag _) ?_ ?_ ?_ ?_ (fun _ => nothing) ?_ ?_ ?_
        · intro j other read pending
          have later := onward j other read pending
          have different : j ≠ i := by
            rintro rfl
            obtain rfl : entry = other := Option.some.inj (found.symm.trans read)
            exact pending none
          exact Nat.lt_of_le_of_ne later different.symm
        · simp [goto, Pc.Walking]
        · simp [goto, Pc.Reaping]
        · simp [goto]
        · exact fun disabled => absurd disabled (tracked.enabled place rfl)
        · simp [goto]
        · simp [goto]
      cases last : entry.lastrec with
      | none =>
          simp only [commitRing, found, last]
          exact skip last
      | some slot =>
          obtain ⟨ring, valid, position, lower, upper, slotEq⟩ :=
            tracked.lastrec i entry slot found last
          have head : (entry.pit.rewind slot).head = slotOf (engine.obj ring).ring.capacity
              (position + 1 + (engine.obj ring).ring.capacity.toNat) :=
            slotEq.trans (slotOf_last (tracked.spanned ring).isMask position).symm
          obtain ⟨-, spanned⟩ := @commitPit_spanned engine i entry ring _ (position + 1) tracked head
            (Nat.le_succ_of_le lower) upper
          simp only [commitRing, found, last, valid]
          have entries (j : Nat) (other : IndexEntry) (read : (engine.index.set i { entry with
              pit := entry.pit.rewind slot, lastrec := none })[j]? = some other)
              (pending : other.lastrec ≠ none) : j ≠ i ∧ engine.index[j]? = some other := by
            rw [List.getElem?_set] at read
            split at read
            · split at read
              · cases read
                exact absurd rfl pending
              · cases read
            · rename_i different
              exact ⟨Ne.symm different, read⟩
          have enabled := tracked.enabled place rfl
          refine ⟨spanned, ?_, ?_, ?_, ?_, ?_, ?_, ?_, fun _ => nothing, ?_, ?_, ?_⟩
          · change ∀ te ∈ engine.tso.entries, _
            rw [nothing]
            exact List.forall_mem_nil _
          · intro j other slot' read last'
            obtain ⟨different, old⟩ := entries j other read (by rw [last']; exact Option.some_ne_none _)
            obtain ⟨owner, owns, within⟩ := tracked.lastrec j other slot' old last'
            refine ⟨owner, owns, Shared.within_elsewhere _ ?_ within⟩
            rintro rfl
            exact different (registered.distinct j i owner (ringAt_eq_some.mpr ⟨other, old, owns⟩)
              (ringAt_eq_some.mpr ⟨entry, found, valid⟩))
          · exact noTag _
          · intro j other read pending
            obtain ⟨different, old⟩ := entries j other read pending
            exact Nat.lt_of_le_of_ne (onward j other old pending) different.symm
          · exact fun _ walks => walks.elim
          · exact fun _ reaps => reaps.elim
          · intro j place
            cases place
          · exact fun disabled => absurd disabled enabled
          · intro j place
            cases place
          · intro place
            cases place

theorem flushTsoStep (std : StdSort) (tracked : engine.Tracked)
    (enabled : engine.tsoDisabled = false) :
    (engine.flushTso std).Tracked := by
  refine tracked.moveInto (.refl _) rfl (fun te => (flushTso_entries std).mem_iff.mp) rfl (fun _ _ => trivial) (fun _ _ _ _ => trivial)
    (fun _ walks => walks.elim) (fun _ reaps => reaps.elim) ?_ ?_ ?_ ?_ ?_
  · intro j place
    cases place
  · intro outside
    cases outside
  · intro disabled
    rw [enabled] at disabled
    cases disabled
  · intro j place
    cases place
  · intro place
    cases place

/-- Replacing the iterator of an entry keeps everything else in the index. -/
theorem setPit_read {i j : Nat} {entry other : IndexEntry} {pit : PopIterator}
    (found : engine.index[i]? = some entry)
    (read : (engine.index.set i { entry with pit })[j]? = some other) :
    ∃ old, engine.index[j]? = some old ∧ other.ring = old.ring ∧ other.lastrec = old.lastrec := by
  rw [List.getElem?_set] at read
  split at read
  · rename_i same
    subst same
    split at read
    · cases read
      exact ⟨entry, found, rfl, rfl⟩
    · cases read
  · exact ⟨other, read, rfl, rfl⟩

/-- `it.reset()` makes the iterator stand at the head of the committed records. -/
theorem resetStep {i : Nat} {entry : IndexEntry} {ring : RingId} {pc : Pc}
    (tracked : engine.Tracked) (before : ∀ j, engine.pc.Scanned j → j < i)
    (found : engine.index[i]? = some entry) (valid : entry.ring = some ring)
    (goes : pc = .drain i ∧ engine.tsoDisabled = true ∨
      pc = .walk i 0 ∧ engine.tsoDisabled = false) :
    (((engine.setEntry i { entry with pit := .reset (engine.obj ring).ring }).log
      (.snapshot ring)).goto pc).Tracked := by
  obtain ⟨tags, recs⟩ := tracked.scanned_le fun j scanned => Nat.le_of_lt (before j scanned)
  have steady : Shared.Steady engine.shared (engine.shared.log (.snapshot ring)) := .log rfl
  have ringAt := ringAt_setEntry_same found { entry with pit := .reset (engine.obj ring).ring } rfl
  have inside := (List.getElem?_eq_some_iff.mp found).1
  have scanned (j : Nat) (low : j ≤ i) (enabled : engine.tsoDisabled = false) : pc.Scanned j := by
    rcases goes with ⟨-, disabled⟩ | ⟨rfl, -⟩
    · rw [enabled] at disabled
      cases disabled
    · exact low
  refine ⟨fun other => steady.spanned (tracked.spanned other), ?_, ?_, ?_, ?_, ?_, ?_, ?_, ?_, ?_,
    ?_, ?_⟩
  · intro te member
    obtain ⟨owner, tagged, within⟩ := tracked.tagged te member
    exact ⟨owner, (congrFun ringAt te.tag).trans tagged, steady.within within⟩
  · intro j other slot read last
    obtain ⟨old, oldRead, ringEq, lastEq⟩ := setPit_read found read
    obtain ⟨owner, owns, within⟩ := tracked.lastrec j old slot oldRead (lastEq.symm.trans last)
    exact ⟨owner, ringEq.trans owns, steady.within within⟩
  · intro te member
    apply scanned te.tag (tags te member)
    cases disabled : engine.tsoDisabled with
    | false => rfl
    | true =>
        have nothing : te ∈ [] := (tracked.notso disabled).1 ▸ member
        exact absurd nothing List.not_mem_nil
  · intro j other read pending
    obtain ⟨old, oldRead, -, lastEq⟩ := setPit_read found read
    rw [lastEq] at pending
    apply scanned j (recs j old oldRead pending)
    cases disabled : engine.tsoDisabled with
    | false => rfl
    | true =>
        exact absurd ((tracked.notso disabled).2.1 old (List.mem_of_getElem? oldRead)) pending
  · intro j walks
    obtain rfl : j = i := by
      rcases goes with ⟨rfl, -⟩ | ⟨rfl, -⟩ <;> exact walks
    refine ⟨{ entry with pit := .reset (engine.obj ring).ring }, ring, ?_, valid,
      engine.shared.popped ring, (engine.shared.committed ring).length, ?_, ?_, ?_⟩
    · exact List.getElem?_set_self inside
    · exact PopIterator.Stands.reset (tracked.spanned ring)
    · exact Nat.le_of_eq (steady.popped ring)
    · exact Nat.le_of_eq (congrArg List.length (steady.committed ring).symm)
  · intro j reaps
    rcases goes with ⟨rfl, -⟩ | ⟨rfl, -⟩ <;> exact reaps.elim
  · intro j place
    rcases goes with ⟨rfl, -⟩ | ⟨rfl, -⟩ <;> cases place
  · intro outside
    rcases goes with ⟨rfl, disabled⟩ | ⟨rfl, -⟩
    · exact (tracked.notso disabled).1
    · cases outside
  · intro disabled
    obtain ⟨empty, settled, -⟩ := tracked.notso disabled
    refine ⟨empty, ?_, ?_⟩
    · intro other member
      obtain ⟨j, read⟩ := List.getElem?_of_mem member
      obtain ⟨old, oldRead, -, lastEq⟩ := setPit_read found read
      exact lastEq.trans (settled old (List.mem_of_getElem? oldRead))
    · rcases goes with ⟨rfl, -⟩ | ⟨rfl, enabled⟩
      · rfl
      · exact absurd (enabled.symm.trans disabled) Bool.false_ne_true
  · intro j place
    rcases goes with ⟨-, disabled⟩ | ⟨rfl, -⟩
    · exact disabled
    · cases place
  · rcases goes with ⟨rfl, -⟩ | ⟨rfl, -⟩ <;> exact fun place => by cases place

theorem scanStep (std : StdSort) {i : Nat} (tracked : engine.Tracked)
    (place : engine.pc = .scan i) : (engine.scanRing std i).Tracked := by
  have before (j : Nat) (scanned : engine.pc.Scanned j) : j < i := by rwa [place] at scanned
  cases found : engine.index[i]? with
  | none =>
      cases disabled : engine.tsoDisabled with
      | false =>
          simp only [scanRing, found, disabled]
          exact tracked.flushTsoStep std disabled
      | true =>
          simp only [scanRing, found, disabled, if_true]
          obtain ⟨empty, settled, -⟩ := tracked.notso disabled
          refine tracked.move (.refl _) rfl rfl rfl ?_ ?_ (fun _ walks => walks.elim)
            (fun _ reaps => reaps.elim) ?_ (fun _ => empty) ?_ ?_ ?_
          · rw [empty]
            exact List.forall_mem_nil _
          · intro j other read pending
            exact absurd (settled other (List.mem_of_getElem? read)) pending
          all_goals simp [goto, Pc.timed]
  | some entry =>
      cases valid : entry.ring with
      | none =>
          simp only [scanRing, found, valid]
          exact tracked.onward (fun j scanned => Nat.le_of_lt (before j scanned)) (.refl _) rfl rfl
            rfl rfl
      | some ring =>
          rw [scanRing_eq std found valid]
          apply tracked.resetStep before found valid
          cases engine.tsoDisabled with
          | false => exact .inr ⟨rfl, rfl⟩
          | true => exact .inl ⟨rfl, rfl⟩

theorem flushFullStep (std : StdSort) {i : Nat} {tsoTs : UInt64} (tracked : engine.Tracked)
    (place : engine.pc = .walk i tsoTs) : (engine.flushFullTso std i tsoTs).Tracked := by
  obtain ⟨tags, recs⟩ := tracked.scanned_le fun j (scanned : engine.pc.Scanned j) => by
    rwa [place] at scanned
  refine tracked.moveInto engine.markTsoFull_steady engine.markTsoFull_index
    (fun te => (std.perm Tsobuf.less engine.tso.entries).mem_iff.mp) engine.markTsoFull_tsoDisabled
    tags recs ?_ (fun _ reaps => reaps.elim) ?_ ?_ ?_ ?_ ?_
  · rintro j rfl
    rw [place]
    rfl
  · intro j place
    cases place
  · intro outside
    cases outside
  · exact fun disabled => absurd disabled (tracked.enabled place rfl)
  · intro j place
    cases place
  · intro place
    cases place

theorem pushStep {i : Nat} {tsoTs timestamp : UInt64} {entry : IndexEntry} {ring : RingId}
    {slot : UInt32} {pit : PopIterator} (tracked : engine.Tracked)
    (place : engine.pc = .walk i tsoTs) (found : engine.index[i]? = some entry)
    (valid : entry.ring = some ring)
    (next : entry.pit.next (engine.obj ring).ring.capacity = some (slot, pit)) :
    (engine.pushRecord i entry pit ⟨timestamp, slot, i⟩).Tracked := by
  have isMask := (tracked.spanned ring).isMask
  obtain ⟨tags, recs⟩ := tracked.scanned_le fun j (scanned : engine.pc.Scanned j) => by
    rwa [place] at scanned
  obtain ⟨other, owner, read, owns, passed, limit, stands, lower, upper⟩ :=
    tracked.walking i (by rw [place]; rfl)
  obtain rfl : entry = other := Option.some.inj (found.symm.trans read)
  obtain rfl : ring = owner := Option.some.inj (valid.symm.trans owns)
  rw [stands.next_eq isMask] at next
  split at next
  · cases next
  · rename_i unfinished
    obtain ⟨rfl, rfl⟩ := Prod.mk.inj (Option.some.inj next)
    have more : passed < limit := Nat.lt_of_le_of_ne stands.ordered unfinished
    have steady : Shared.Steady engine.shared (engine.shared.log (.tsoPush engine.tso.tail)) :=
      .log rfl
    have ringAt := ringAt_setEntry_same found
      { entry with pit := { entry.pit with head := slotOf (engine.obj ring).ring.capacity passed } }
      rfl
    have inside := (List.getElem?_eq_some_iff.mp found).1
    have enabled := tracked.enabled place rfl
    refine ⟨fun other => steady.spanned (tracked.spanned other), ?_, ?_, ?_, ?_, ?_,
      fun _ reaps => reaps.elim, ?_, ?_, fun disabled => absurd disabled enabled, ?_, ?_⟩
    · intro te member
      rcases List.mem_append.mp member with old | new
      · obtain ⟨owner, tagged, within⟩ := tracked.tagged te old
        exact ⟨owner, (congrFun ringAt te.tag).trans tagged, steady.within within⟩
      · obtain rfl := List.mem_singleton.mp new
        refine ⟨ring, (congrFun ringAt i).trans (ringAt_eq_some.mpr ⟨entry, found, valid⟩), ?_⟩
        exact steady.within ⟨passed, lower, by omega, rfl⟩
    · intro j other slot read last
      obtain ⟨old, oldRead, ringEq, lastEq⟩ := setPit_read found read
      obtain ⟨owner, owns, within⟩ := tracked.lastrec j old slot oldRead (lastEq.symm.trans last)
      exact ⟨owner, ringEq.trans owns, steady.within within⟩
    · intro te member
      rcases List.mem_append.mp member with old | new
      · exact tags te old
      · obtain rfl := List.mem_singleton.mp new
        exact Nat.le_refl i
    · intro j other read pending
      obtain ⟨old, oldRead, -, lastEq⟩ := setPit_read found read
      rw [lastEq] at pending
      exact recs j old oldRead pending
    · rintro j rfl
      refine ⟨_, ring, List.getElem?_set_self inside, valid, passed + 1, limit,
        stands.advance isMask more, ?_, ?_⟩
      · exact Nat.le_succ_of_le ((steady.popped ring).trans_le lower)
      · exact upper.trans_eq (congrArg List.length (steady.committed ring).symm)
    · intro j place
      cases place
    · intro outside
      cases outside
    · intro j place
      cases place
    · intro place
      cases place

theorem walkStep (std : StdSort) {i : Nat} {tsoTs : UInt64} (tracked : engine.Tracked)
    (place : engine.pc = .walk i tsoTs) : (engine.walkRing std i tsoTs).Tracked := by
  obtain ⟨tags, recs⟩ := tracked.scanned_le fun j (scanned : engine.pc.Scanned j) => by
    rwa [place] at scanned
  obtain ⟨entry, ring, found, valid, -⟩ := tracked.walking i (by rw [place]; rfl)
  rw [walkRing, withRing_eq found valid]
  split
  · refine tracked.move (.refl _) rfl rfl rfl tags recs (fun _ walks => walks.elim) ?_ ?_ ?_ ?_ ?_ ?_
    · rintro j rfl
      exact ⟨ring, ringAt_eq_some.mpr ⟨entry, found, valid⟩⟩
    all_goals simp [goto, Pc.buffering, Pc.timed]
  · rename_i slot pit next
    have pushed := @pushStep engine i tsoTs
      (adjust ((engine.obj ring).ring.slots slot).timestamp tsoTs) entry ring slot pit tracked place
      found valid next
    dsimp only
    split
    · exact pushed.flushFullStep std rfl
    · exact pushed

theorem flushReturnStep {left : Nat} {caller : Caller} (tracked : engine.Tracked)
    (place : engine.pc = .doFlush left caller) : (engine.flushReturn caller).Tracked := by
  have enabled := tracked.enabled place rfl
  cases caller with
  | full i tsoTs =>
      obtain ⟨tags, recs⟩ := tracked.scanned_le fun j (scanned : engine.pc.Scanned j) => by
        rwa [place] at scanned
      refine tracked.move (.log rfl) rfl rfl rfl tags recs ?_ (fun _ reaps => reaps.elim) ?_ ?_
        (fun disabled => absurd disabled enabled) ?_ ?_
      · rintro j rfl
        rw [place]
        rfl
      all_goals simp [flushReturn, Pc.buffering]
  | final =>
      refine tracked.moveInto (.refl _) rfl ?_ rfl (fun te _ => Nat.zero_le te.tag)
        (fun j _ _ _ => Nat.zero_le j) (fun _ walks => walks.elim) (fun _ reaps => reaps.elim) ?_
        (fun _ => rfl) (fun disabled => absurd disabled enabled) ?_ ?_
      all_goals simp [flushReturn, Tsobuf.reset]

/-- Recording the flushed slot keeps what the index says about the rings. -/
theorem setLastrec_read {i j : Nat} {entry other : IndexEntry} {slot : UInt32} {seqnum : UInt64}
    (read : (engine.index.set i { entry with lastrec := some slot, seqnum })[j]? = some other) :
    j = i ∧ other = { entry with lastrec := some slot, seqnum } ∨
      j ≠ i ∧ engine.index[j]? = some other := by
  rw [List.getElem?_set] at read
  split at read
  · rename_i same
    split at read
    · exact .inl ⟨same.symm, (Option.some.inj read).symm⟩
    · cases read
  · rename_i different
    exact .inr ⟨Ne.symm different, read⟩

theorem popStep {left : Nat} {caller : Caller} {te : TsoEntry} {rest : List TsoEntry}
    (tracked : engine.Tracked) (place : engine.pc = .doFlush (left + 1) caller)
    (entries : engine.tso.entries = te :: rest) :
    (Engine.flushEntry
      { engine with
        tso := { engine.tso with head := engine.tso.head + 1, entries := rest }
        pc := .doFlush left caller } te).Tracked := by
  have isTop : te ∈ engine.tso.entries := entries ▸ List.mem_cons_self
  have older (other : TsoEntry) (member : other ∈ rest) : other ∈ engine.tso.entries :=
    entries ▸ List.mem_cons_of_mem te member
  obtain ⟨ring, at', topWithin⟩ := tracked.tagged te isTop
  obtain ⟨entry, found, valid⟩ := ringAt_eq_some.mp at'
  obtain ⟨popped, poppedEq⟩ : ∃ popped, popped = { engine with
    tso := { engine.tso with head := engine.tso.head + 1, entries := rest }
    pc := .doFlush left caller } := ⟨_, rfl⟩
  rw [← poppedEq]
  have foundIn : popped.index[te.tag]? = some entry := by
    rw [poppedEq]
    exact found
  have handed := flushEntry_handed foundIn valid
  have index := flushEntry_index foundIn valid
  have steady : Shared.Steady engine.shared (popped.flushEntry te).shared := by
    have moved := handed.steady
    rwa [poppedEq] at moved ⊢
  have tso : (popped.flushEntry te).tso.entries = rest := by
    rw [handed.tso, poppedEq]
  have pc : (popped.flushEntry te).pc = .doFlush left caller := by
    rw [handed.pc, poppedEq]
  have mode : (popped.flushEntry te).tsoDisabled = engine.tsoDisabled := by
    rw [handed.tsoDisabled, poppedEq]
  have read (j : Nat) (other : IndexEntry)
      (here : (popped.flushEntry te).index[j]? = some other) :
      j = te.tag ∧ other.ring = some ring ∧ other.lastrec = some te.slot ∨
        j ≠ te.tag ∧ engine.index[j]? = some other := by
    rw [index] at here
    rcases setLastrec_read here with ⟨same, rfl⟩ | ⟨different, old⟩
    · exact .inl ⟨same, valid, rfl⟩
    · exact .inr ⟨different, by rwa [poppedEq] at old⟩
  have ringAt : (popped.flushEntry te).ringAt = engine.ringAt := by
    rw [(Kept.flushEntry foundIn valid).ringAt, poppedEq]
    rfl
  have scanned : (popped.flushEntry te).pc.Scanned = engine.pc.Scanned := by
    rw [pc, place]
    cases caller <;> rfl
  have walking : (popped.flushEntry te).pc.Walking = engine.pc.Walking := by
    rw [pc, place]
    cases caller <;> rfl
  refine ⟨fun other => steady.spanned (tracked.spanned other), ?_, ?_, ?_, ?_, ?_, ?_, ?_, ?_, ?_,
    ?_, ?_⟩
  · rw [tso, ringAt]
    intro other member
    obtain ⟨owner, tagged, within⟩ := tracked.tagged other (older other member)
    exact ⟨owner, tagged, steady.within within⟩
  · intro j other slot here last
    rcases read j other here with ⟨-, owns, new⟩ | ⟨-, old⟩
    · obtain rfl : te.slot = slot := Option.some.inj (new.symm.trans last)
      exact ⟨ring, owns, steady.within topWithin⟩
    · obtain ⟨owner, owns, within⟩ := tracked.lastrec j other slot old last
      exact ⟨owner, owns, steady.within within⟩
  · rw [tso, scanned]
    exact fun other member => tracked.tagScanned other (older other member)
  · rw [scanned]
    intro j other here pending
    rcases read j other here with ⟨rfl, -⟩ | ⟨-, old⟩
    · exact tracked.tagScanned te isTop
    · exact tracked.recScanned j other old pending
  · refine tracked.walkers steady (fun j walks => walking ▸ walks) fun j old stored => ?_
    rw [index, poppedEq]
    by_cases same : j = te.tag
    · subst same
      obtain rfl : entry = old := Option.some.inj (found.symm.trans stored)
      have inside := (List.getElem?_eq_some_iff.mp found).1
      exact ⟨_, List.getElem?_set_self inside, rfl, rfl⟩
    · exact ⟨old, (List.getElem?_set_ne (Ne.symm same)).trans stored, rfl, rfl⟩
  · rw [pc]
    exact fun _ reaps => reaps.elim
  · rw [pc]
    intro j same
    cases same
  · rw [pc]
    intro outside
    cases outside
  · rw [mode]
    exact fun disabled => absurd disabled (tracked.enabled place rfl)
  · rw [pc]
    intro j same
    cases same
  · rw [pc]
    intro same
    cases same

theorem doFlushStep {left : Nat} {caller : Caller} (tracked : engine.Tracked)
    (place : engine.pc = .doFlush left caller) : (engine.doFlushTso left caller).Tracked := by
  cases entries : engine.tso.entries with
  | nil =>
      have nothing : engine.tso.pop = none := by simp only [Tsobuf.pop, entries]
      cases left <;>
      · simp only [doFlushTso, nothing]
        exact tracked.flushReturnStep place
  | cons te rest =>
      have top : engine.tso.pop =
          some (te, { engine.tso with head := engine.tso.head + 1, entries := rest }) := by
        simp only [Tsobuf.pop, entries]
      cases left with
      | zero =>
          simp only [doFlushTso]
          exact tracked.flushReturnStep place
      | succ left =>
          simp only [doFlushTso, top]
          exact tracked.popStep place entries

/-- `process_rings_notso` flushes one record of the ring it is draining. -/
theorem drainFlushStep {i passed limit : Nat} {entry : IndexEntry} {ring : RingId}
    (tracked : engine.Tracked) (place : engine.pc = .drain i)
    (found : engine.index[i]? = some entry) (valid : entry.ring = some ring)
    (stands : entry.pit.Stands (engine.obj ring).ring.capacity passed limit)
    (lower : engine.shared.popped ring ≤ passed)
    (upper : limit ≤ (engine.shared.committed ring).length) (more : passed < limit) :
    (Engine.flushRecord
      (engine.setEntry i { entry with
        pit := { entry.pit with head := slotOf (engine.obj ring).ring.capacity passed } })
      ring (slotOf (engine.obj ring).ring.capacity passed)).Tracked := by
  have disabled := tracked.drains i place
  obtain ⟨empty, settled, -⟩ := tracked.notso disabled
  obtain ⟨moved, movedEq⟩ : ∃ moved, moved = engine.setEntry i { entry with
    pit := { entry.pit with head := slotOf (engine.obj ring).ring.capacity passed } } := ⟨_, rfl⟩
  rw [← movedEq]
  have handed := flushRecord_handed moved ring (slotOf (engine.obj ring).ring.capacity passed)
  obtain ⟨after, afterEq⟩ : ∃ after, after =
    moved.flushRecord ring (slotOf (engine.obj ring).ring.capacity passed) := ⟨_, rfl⟩
  rw [← afterEq] at handed ⊢
  have index : after.index = engine.index.set i { entry with
      pit := { entry.pit with head := slotOf (engine.obj ring).ring.capacity passed } } := by
    rw [afterEq, flushRecord_index, movedEq]
    rfl
  have steady : Shared.Steady engine.shared after.shared := by
    have same := handed.steady
    rwa [movedEq] at same
  have tso : after.tso.entries = [] := by
    rw [handed.tso, movedEq]
    exact empty
  have pc : after.pc = .drain i := by
    rw [handed.pc, movedEq]
    exact place
  have mode : after.tsoDisabled = true := by
    rw [handed.tsoDisabled, movedEq]
    exact disabled
  have fresh (other : IndexEntry) (member : other ∈ after.index) : other.lastrec = none := by
    obtain ⟨j, read⟩ := List.getElem?_of_mem member
    rw [index] at read
    obtain ⟨old, oldRead, -, lastEq⟩ := setPit_read found read
    exact lastEq.trans (settled old (List.mem_of_getElem? oldRead))
  have inside := (List.getElem?_eq_some_iff.mp found).1
  refine ⟨fun other => steady.spanned (tracked.spanned other), ?_, ?_, ?_, ?_, ?_, ?_, ?_,
    fun _ => tso, ?_, fun _ _ => mode, ?_⟩
  · rw [tso]
    exact List.forall_mem_nil _
  · intro j other slot read last
    rw [fresh other (List.mem_of_getElem? read)] at last
    cases last
  · rw [tso]
    exact List.forall_mem_nil _
  · intro j other read pending
    exact absurd (fresh other (List.mem_of_getElem? read)) pending
  · rw [pc]
    rintro j rfl
    refine ⟨{ entry with
      pit := { entry.pit with head := slotOf (engine.obj ring).ring.capacity passed } }, ring, ?_,
      valid, passed + 1, limit, ?_, ?_, ?_⟩
    · rw [index]
      exact List.getElem?_set_self inside
    · rw [show (after.obj ring).ring.capacity = (engine.obj ring).ring.capacity from
        steady.capacity ring]
      exact stands.advance (tracked.spanned ring).isMask more
    · rw [steady.popped]
      exact Nat.le_succ_of_le lower
    · rw [steady.committed]
      exact upper
  · rw [pc]
    exact fun _ reaps => reaps.elim
  · rw [pc]
    intro j same
    cases same
  · rw [pc]
    exact fun _ => ⟨tso, fresh, rfl⟩
  · rw [pc]
    intro same
    cases same

/-- `process_rings_notso` commits the head of the ring it has drained. -/
theorem drainCommitStep {i passed : Nat} {entry : IndexEntry} {ring : RingId}
    (tracked : engine.Tracked) (place : engine.pc = .drain i)
    (found : engine.index[i]? = some entry) (valid : entry.ring = some ring)
    (stands : entry.pit.Stands (engine.obj ring).ring.capacity passed passed)
    (lower : engine.shared.popped ring ≤ passed)
    (upper : passed ≤ (engine.shared.committed ring).length) :
    ((engine.commitPit i entry ring entry.pit).goto (.orphan i)).Tracked := by
  have disabled := tracked.drains i place
  obtain ⟨empty, settled, -⟩ := tracked.notso disabled
  obtain ⟨-, spanned⟩ := @commitPit_spanned engine i entry ring _ passed tracked stands.head lower
    upper
  have fresh (other : IndexEntry)
      (member : other ∈ engine.index.set i { entry with pit := entry.pit, lastrec := none }) :
      other.lastrec = none := by
    rcases List.mem_or_eq_of_mem_set member with old | rfl
    · exact settled other old
    · rfl
  refine ⟨spanned, ?_, ?_, ?_, ?_, fun _ walks => walks.elim, ?_, ?_, fun _ => empty,
    fun _ => ⟨empty, fresh, rfl⟩, ?_, ?_⟩
  · change ∀ te ∈ engine.tso.entries, _
    rw [empty]
    exact List.forall_mem_nil _
  · intro j other slot read last
    rw [fresh other (List.mem_of_getElem? read)] at last
    cases last
  · change ∀ te ∈ engine.tso.entries, _
    rw [empty]
    exact List.forall_mem_nil _
  · intro j other read pending
    exact absurd (fresh other (List.mem_of_getElem? read)) pending
  · rintro j rfl
    refine ⟨ring, ?_⟩
    have kept : Kept engine (engine.commitPit j entry ring entry.pit) := .commitPit found ring _
    exact (congrFun kept.ringAt j).trans (ringAt_eq_some.mpr ⟨entry, found, valid⟩)
  · intro j same
    cases same
  · intro j same
    cases same
  · intro same
    cases same

theorem drainStep {i : Nat} (tracked : engine.Tracked) (place : engine.pc = .drain i) :
    (engine.drainRing i).Tracked := by
  obtain ⟨entry, ring, found, valid, passed, limit, stands, lower, upper⟩ :=
    tracked.walking i (by rw [place]; rfl)
  rw [drainRing, withRing_eq found valid, stands.next_eq (tracked.spanned ring).isMask]
  by_cases finished : passed = limit
  · subst finished
    simp only [if_true]
    exact tracked.drainCommitStep place found valid stands lower upper
  · simp only [finished, if_false]
    exact tracked.drainFlushStep place found valid stands lower upper
      (Nat.lt_of_le_of_ne stands.ordered finished)

theorem step (std : StdSort) (trylock : Bool) (tracked : engine.Tracked)
    (registered : engine.Registered) : (engine.step std trylock).Tracked := by
  cases place : engine.pc with
  | idle =>
      simp only [Engine.step, place]
      exact tracked.idleStep place
  | rebuild =>
      simp only [Engine.step, place]
      cases trylock with
      | true => exact tracked.rebuildStep std place
      | false => exact tracked.unlockedStep place
  | scan i =>
      simp only [Engine.step, place]
      exact tracked.scanStep std place
  | walk i tsoTs =>
      simp only [Engine.step, place]
      exact tracked.walkStep std place
  | doFlush left caller =>
      simp only [Engine.step, place]
      exact tracked.doFlushStep place
  | drain i =>
      simp only [Engine.step, place]
      exact tracked.drainStep place
  | orphan i =>
      simp only [Engine.step, place]
      exact tracked.orphanStep place
  | empty i =>
      simp only [Engine.step, place]
      exact tracked.emptyStep place
  | kill i =>
      simp only [Engine.step, place]
      exact tracked.killStep place trylock
  | release i ring =>
      simp only [Engine.step, place]
      exact tracked.releaseStep place
  | commit i =>
      simp only [Engine.step, place]
      exact tracked.commitStep registered place
  | finish =>
      simp only [Engine.step, place]
      exact tracked.finishStep place
  | halted => exact absurd place tracked.running

theorem act (std : StdSort) (tracked : engine.Tracked) (registered : engine.Registered)
    (action : Action) : (engine.act std action).Tracked := by
  cases action with
  | engine trylock => exact tracked.step std trylock registered
  | client op => exact tracked.client (engine.shared.apply_step op)

theorem after (std : StdSort) (tracked : engine.Tracked) (registered : engine.Registered)
    (actions : List Action) : (engine.after std actions).Tracked :=
  (@runs_invariant _ _ (Engine.act std) (fun state => state.Registered ∧ state.Tracked) engine
    ⟨registered, tracked⟩
    (fun _ action holds => ⟨holds.1.act std action, holds.2.act std holds.1 action⟩) actions).2

end Tracked

theorem RingObj.Fresh.spans {obj : RingObj} (fresh : obj.Fresh) : obj.ring.Spans 0 0 := by
  obtain ⟨mask, slots, isMask, made⟩ := fresh.made
  rw [made]
  exact Ringbuf.fresh_spans isMask _ slots

theorem create_tracked (capacity : UInt32) (tsoDisabled : Bool) (timesource : UInt64)
    {rings : RingId → RingObj} (fresh : ∀ ring, (rings ring).Fresh) :
    (create capacity tsoDisabled timesource rings).Tracked where
  spanned ring := .of (RingObj.Fresh.spans (fresh ring))
  tagged := List.forall_mem_nil _
  lastrec _ _ _ found := by cases found
  tagScanned := List.forall_mem_nil _
  recScanned _ _ found := by cases found
  walking _ walks := walks.elim
  reaping _ reaps := reaps.elim
  clean _ place := by cases place
  buffered _ := rfl
  notso _ := ⟨rfl, List.forall_mem_nil _, rfl⟩
  drains _ place := by cases place
  running place := by cases place

/-- Whatever the engine and its clients do, the index stays tied to the ring
map, no TSO entry is tagged with an invalidated slot of the index, and no
registration is lost. -/
theorem ring_index_consistent (std : StdSort) (capacity : UInt32) (tsoDisabled : Bool)
    (timesource : UInt64) (rings : RingId → RingObj) (fresh : ∀ ring, (rings ring).Fresh)
    (actions : List Action) :
    let engine := (create capacity tsoDisabled timesource rings).after std actions
    (∀ entry ∈ engine.index, ∀ ring, entry.ring = some ring →
      engine.shared.findRing (engine.obj ring).name = some ring ∧
      (engine.obj ring).clients + 1 ≤ (engine.obj ring).refcnt) ∧
    (∀ te ∈ engine.tso.entries, ∃ entry ring, engine.index[te.tag]? = some entry ∧
      entry.ring = some ring) ∧
    (∀ ring ∈ engine.shared.ringMap, (∃ entry ∈ engine.index, entry.ring = some ring) ∨
      engine.shared.dirty = true ∨ ring ∈ engine.shared.unmarked) ∧
    ∀ old ∈ engine.index, ∀ new ∈ (engine.rebuildRingIndex std).index, ∀ ring,
      old.ring = some ring → new.ring = some ring → new.seqnum = old.seqnum := by
  intro engine
  have registered : engine.Registered :=
    (create_registered capacity tsoDisabled timesource fresh).after std actions
  have tracked : engine.Tracked := (create_tracked capacity tsoDisabled timesource fresh).after std
    (create_registered capacity tsoDisabled timesource fresh) actions
  refine ⟨?_, ?_, ?_, ?_⟩
  · intro entry member ring valid
    obtain ⟨i, read⟩ := List.getElem?_of_mem member
    have mapped := registered.mapped i ring (ringAt_eq_some.mpr ⟨entry, read, valid⟩)
    have counted := registered.refs ring
    rw [Shared.owned, if_pos mapped] at counted
    exact ⟨registered.keyed.findRing mapped, by omega⟩
  · intro te member
    obtain ⟨ring, found, -⟩ := tracked.tagged te member
    obtain ⟨entry, read, valid⟩ := ringAt_eq_some.mp found
    exact ⟨entry, ring, read, valid⟩
  · intro ring member
    rcases registered.flagged ring member with ⟨i, found⟩ | flagged
    · obtain ⟨entry, read, valid⟩ := ringAt_eq_some.mp found
      exact .inl ⟨entry, List.mem_of_getElem? read, valid⟩
    · exact .inr flagged
  · intro old before new after ring oldRing newRing
    exact registered.rebuild_seqnum before oldRing after newRing

/-- A registered ring is indexed by the first poll after `dirty` was set. -/
theorem ring_index_consistent_first_poll :
    let engine := (create 16 false 0 fun _ => .made 3 false (ascii "ring")).after .insertion
      [.client (.addNamed 0), .client (.markDirty 0), .engine true, .engine true]
    engine.index.map (·.ring) = [some 0] ∧
      engine.shared.findRing (engine.obj 0).name = some 0 ∧ 2 ≤ (engine.obj 0).refcnt := by
  intro engine
  have indexed : engine.index.map (·.ring) = [some 0] := by decide +kernel
  have consistent := (ring_index_consistent .insertion 16 false 0
    (fun _ => .made 3 false (ascii "ring")) (fun _ => RingObj.made_fresh ⟨2, rfl⟩ _ _)
    [.client (.addNamed 0), .client (.markDirty 0), .engine true, .engine true]).1
  obtain ⟨entry, member, valid⟩ := List.mem_map.mp (indexed ▸ List.mem_singleton_self (some 0))
  obtain ⟨found, counted⟩ := consistent entry member 0 valid
  exact ⟨indexed, found, counted⟩

end Engine

end Hogl.Polling
