import Hogl.Engine.Numbering

namespace Hogl.Polling

open Hogl.Data Hogl.Ring

/-! # Rings that outlive an engine

`activate` and `deactivate` of `src/default-engine.cc`, with the end of an
engine in `src/engine.cc`, and `ringbuf::reset`.  A ring may be registered
again, with the same engine or the next one, after it was dropped as an
orphan.
-/

/-- Whether the event bears the records of a ring. -/
def Event.carries (ring : RingId) : Event → Bool
  | .committed other _ | .flushed other _ => other == ring
  | _ => false

/-- The operations of an engine. -/
def Op.needsEngine : Op → Bool
  | .addNamed _ | .markDirty _ | .addRing _ | .mask _ _ => true
  | _ => false

namespace Engine

variable (engine : Engine)

/-- Whether the iterator of the ring is in use. -/
def walks (ring : RingId) : Bool :=
  match engine.pc with
  | .walk i _ | .doFlush _ (.full i _) | .drain i => engine.ringAt i == some ring
  | _ => false

/-- Whether the ring has an index entry. -/
def indexes (ring : RingId) : Bool := engine.index.any fun entry => entry.ring == some ring

/-- `ringbuf::reset`; the trace counts the records of the ring from here on. -/
def resetRing (ring : RingId) : Engine :=
  let obj := engine.obj ring
  { engine.setRing ring { obj with
      ring := .fresh obj.ring.capacity obj.ring.blocking obj.ring.slots } with
    shared.trace := engine.shared.trace.filter fun event => !event.carries ring }

/-- `drain_rings` returns behind this poll. -/
def drained : Bool := engine.pc == .idle && !engine.shared.dirty && engine.index.isEmpty

/-- The destructor behind the drain: the rings left in the map are released. -/
def retire : Engine :=
  { engine with
    shared.rings := fun ring =>
      let obj := engine.obj ring
      if ring ∈ engine.shared.ringMap then { obj with refcnt := obj.refcnt - 1 } else obj
    shared.ringMap := []
    shared.unmarked := [] }

/-- A new engine over the same rings. -/
def renew (capacity : UInt32) (timesource : UInt64) : Engine :=
  { create capacity false timesource engine.shared.rings with
    shared.trace := engine.shared.trace }

end Engine

/-- The engine that runs, or the one that ran last. -/
structure Reuse where
  engine : Engine
  active : Bool

inductive ReuseAction where
  | act (action : Action)
  /-- `activate`, up to the `hold()` and `add_ring` of the default ring. -/
  | activate (capacity : UInt32) (timesource : UInt64)
  /-- `delete default_engine` of `deactivate`. -/
  | deactivate
  | reset (ring : RingId)
deriving Repr, DecidableEq

namespace Reuse

/-- Before the first `activate`. -/
def create (rings : RingId → RingObj) : Reuse where
  engine := .create 0 false 0 rings
  active := false

variable (std : StdSort) (state : Reuse)

/-- The ring is empty and nobody is at it. -/
def idles (ring : RingId) : Bool :=
  let obj := state.engine.obj ring
  obj.ring.empty && obj.writer == .idle && !state.engine.walks ring

def act : ReuseAction → Reuse
  | .act (.engine trylock) =>
      if state.active then { state with engine := state.engine.step std trylock } else state
  | .act (.client op) =>
      if state.active || !op.needsEngine
      then { state with engine := state.engine.act std (.client op) } else state
  | .activate capacity timesource =>
      if state.active then state else ⟨state.engine.renew capacity timesource, true⟩
  | .deactivate =>
      if state.active && state.engine.drained then ⟨state.engine.retire, false⟩ else state
  | .reset ring =>
      if state.idles ring then { state with engine := state.engine.resetRing ring } else state

def after (start : Reuse) (actions : List ReuseAction) : Reuse := runs (act std) start actions

end Reuse

/-! ## The records behind a reset -/

section Carried

variable {ring other : RingId} {trace : List Event}

theorem committedTo_forgotten :
    committedTo ring (trace.filter fun event => !event.carries ring) = [] := by
  apply committedTo_silent
  rintro event member record rfl
  exact absurd (List.mem_filter.mp member).2 (by simp [Event.carries])

theorem flushedTo_forgotten :
    flushedTo ring (trace.filter fun event => !event.carries ring) = [] := by
  apply flushedTo_silent
  rintro event member record rfl
  exact absurd (List.mem_filter.mp member).2 (by simp [Event.carries])

theorem committedTo_remembered (different : other ≠ ring) :
    committedTo other (trace.filter fun event => !event.carries ring) = committedTo other trace := by
  rw [committedTo, List.filterMap_filter, committedTo]
  congr 1
  funext event
  cases event with
  | committed owner record =>
      by_cases same : owner = ring
      · subst same
        simp [Event.carries, Ne.symm different]
      · simp [Event.carries, same]
  | flushed owner record => simp
  | _ => rfl

theorem flushedTo_remembered (different : other ≠ ring) :
    flushedTo other (trace.filter fun event => !event.carries ring) = flushedTo other trace := by
  rw [flushedTo, List.filterMap_filter, flushedTo]
  congr 1
  funext event
  cases event with
  | flushed owner record =>
      by_cases same : owner = ring
      · subst same
        simp [Event.carries, Ne.symm different]
      · simp [Event.carries, same]
  | committed owner record => simp
  | _ => rfl

end Carried

namespace Engine

variable {engine : Engine} {ring target : RingId}

theorem walks_iff : engine.walks ring = true ↔
    ∃ i, engine.pc.Walking i ∧ engine.ringAt i = some ring := by
  simp only [walks]
  split <;> simp_all [Pc.Walking]

theorem indexes_iff : engine.indexes ring = true ↔ ∃ i, engine.ringAt i = some ring := by
  simp only [indexes, List.any_eq_true, beq_iff_eq]
  constructor
  · intro ⟨entry, member, owns⟩
    obtain ⟨i, read⟩ := List.getElem?_of_mem member
    exact ⟨i, ringAt_eq_some.mpr ⟨entry, read, owns⟩⟩
  · intro ⟨i, found⟩
    obtain ⟨entry, read, owns⟩ := ringAt_eq_some.mp found
    exact ⟨entry, List.mem_of_getElem? read, owns⟩

theorem resetRing_obj (engine : Engine) (target ring : RingId) :
    (engine.resetRing target).obj ring = if ring = target then { engine.obj target with
      ring := .fresh (engine.obj target).ring.capacity (engine.obj target).ring.blocking
        (engine.obj target).ring.slots } else engine.obj ring :=
  obj_setRing target ring _

theorem resetRing_committed (engine : Engine) (target ring : RingId) :
    (engine.resetRing target).shared.committed ring =
      if ring = target then [] else engine.shared.committed ring := by
  split
  · rename_i same
    subst same
    exact committedTo_forgotten
  · rename_i different
    exact committedTo_remembered different

theorem resetRing_flushed (engine : Engine) (target ring : RingId) :
    (engine.resetRing target).shared.flushed ring =
      if ring = target then [] else engine.shared.flushed ring := by
  split
  · rename_i same
    subst same
    exact flushedTo_forgotten
  · rename_i different
    exact flushedTo_remembered different

theorem resetRing_untouched (engine : Engine) (different : ring ≠ target) :
    Shared.Untouched ring engine.shared (engine.resetRing target).shared := by
  refine .of_same ?_ ?_ ?_
  · exact congrArg (·.ring) ((resetRing_obj engine target ring).trans (if_neg different))
  · rw [resetRing_committed, if_neg different]
  · rw [resetRing_flushed, if_neg different]

theorem resetRing_spans (tracked : engine.Tracked) :
    ((engine.resetRing target).obj target).ring.Spans 0
      ((engine.resetRing target).shared.committed target).length := by
  rw [resetRing_obj, if_pos rfl, resetRing_committed, if_pos rfl]
  exact Ringbuf.fresh_spans (tracked.spanned target).isMask _ _

theorem resetRing_within {slot : UInt32} (tracked : engine.Tracked)
    (empty : (engine.obj target).ring.empty = true) (within : engine.shared.Within ring slot) :
    ring ≠ target ∧ (engine.resetRing target).shared.Within ring slot := by
  have different : ring ≠ target := by
    rintro rfl
    exact Shared.not_within_of_empty (tracked.spanned ring) empty within
  have untouched := resetRing_untouched engine different
  refine ⟨different, ?_⟩
  rw [Shared.Within, untouched.popped, untouched.capacity, resetRing_committed,
    if_neg different]
  exact within

theorem Tracked.resetRing (tracked : engine.Tracked)
    (empty : (engine.obj target).ring.empty = true) (free : engine.walks target = false) :
    (engine.resetRing target).Tracked where
  spanned ring := by
    by_cases same : ring = target
    · subst same
      exact .of (resetRing_spans tracked)
    · have untouched := resetRing_untouched engine same
      have committed := resetRing_committed engine target ring
      rw [if_neg same] at committed
      have spans := tracked.spanned ring
      have obj : (engine.resetRing target).shared.rings ring = engine.shared.rings ring :=
        (resetRing_obj engine target ring).trans (if_neg same)
      rw [Shared.Spanned, untouched.popped, committed, obj]
      exact spans
  tagged te member := by
    obtain ⟨ring, found, within⟩ := tracked.tagged te member
    exact ⟨ring, found, (resetRing_within tracked empty within).2⟩
  lastrec i entry slot found last := by
    obtain ⟨ring, valid, within⟩ := tracked.lastrec i entry slot found last
    exact ⟨ring, valid, (resetRing_within tracked empty within).2⟩
  tagScanned := tracked.tagScanned
  recScanned := tracked.recScanned
  walking i walking := by
    obtain ⟨entry, ring, found, valid, passed, limit, stands, lower, upper⟩ :=
      tracked.walking i walking
    have different : ring ≠ target := by
      rintro rfl
      have used : engine.walks ring = true :=
        walks_iff.mpr ⟨i, walking, ringAt_eq_some.mpr ⟨entry, found, valid⟩⟩
      cases used.symm.trans free
    have untouched := resetRing_untouched engine different
    refine ⟨entry, ring, found, valid, passed, limit, ?_, ?_, ?_⟩
    · rw [obj, untouched.capacity]
      exact stands
    · rw [untouched.popped]
      exact lower
    · rw [resetRing_committed, if_neg different]
      exact upper
  reaping := tracked.reaping
  clean := tracked.clean
  buffered := tracked.buffered
  notso := tracked.notso
  drains := tracked.drains
  running := tracked.running

theorem Sound.resetRing (sound : engine.Sound) (empty : (engine.obj target).ring.empty = true)
    (free : engine.walks target = false) : (engine.resetRing target).Sound := by
  have same (ring : RingId) : ((engine.resetRing target).obj ring).name = (engine.obj ring).name ∧
      ((engine.resetRing target).obj ring).clients = (engine.obj ring).clients ∧
      ((engine.resetRing target).obj ring).refcnt = (engine.obj ring).refcnt := by
    rw [resetRing_obj]
    split
    · rename_i equal
      rw [equal]
      exact ⟨rfl, rfl, rfl⟩
    · exact ⟨rfl, rfl, rfl⟩
  refine ⟨sound.registered.frame rfl rfl rfl rfl (fun ring => (same ring).1)
    (fun ring => (same ring).2.1) ?_, sound.tracked.resetRing empty free⟩
  intro ring
  rw [(same ring).2.2]
  rfl

/-! ## One engine after another -/

theorem drained_iff : engine.drained = true ↔
    engine.pc = .idle ∧ engine.shared.dirty = false ∧ engine.index = [] := by
  simp [drained, and_assoc]

/-- An engine that stands still and holds no ring. -/
structure Gone (engine : Engine) : Prop where
  place : engine.pc = .idle
  index : engine.index = []
  ringMap : engine.shared.ringMap = []

theorem nowhere_of_index (index : engine.index = []) (i : Nat) : engine.ringAt i ≠ some ring := by
  rw [ringAt, index]
  exact fun found => by cases found

/-- An engine without an index and the same rings and records. -/
theorem Tracked.emptied {after : Engine} (tracked : engine.Tracked)
    (steady : Shared.Steady engine.shared after.shared) (place : after.pc = .idle)
    (index : after.index = []) (entries : after.tso.entries = []) : after.Tracked where
  spanned ring := steady.spanned (tracked.spanned ring)
  tagged := by
    rw [entries]
    exact List.forall_mem_nil _
  lastrec := by
    rw [index]
    exact fun _ _ _ read => by cases read
  tagScanned := by
    rw [entries]
    exact List.forall_mem_nil _
  recScanned := by
    rw [index]
    exact fun _ _ read => by cases read
  walking i walks := by
    rw [place] at walks
    exact walks.elim
  reaping i reaps := by
    rw [place] at reaps
    exact reaps.elim
  clean i kills := by
    rw [place] at kills
    cases kills
  buffered _ := entries
  notso _ := by
    rw [entries, index, place]
    exact ⟨rfl, List.forall_mem_nil _, rfl⟩
  drains i drains := by
    rw [place] at drains
    cases drains
  running := by
    rw [place]
    exact fun halted => by cases halted

theorem Registered.emptied {after : Engine} (place : after.pc = .idle) (index : after.index = [])
    (ringMap : after.shared.ringMap = [])
    (refs : ∀ ring, (after.obj ring).refcnt = (after.obj ring).clients) : after.Registered where
  keyed := by
    refine ⟨?_, ?_⟩
    · rw [ringMap]
      exact List.nodup_nil
    · rw [ringMap]
      exact List.forall_mem_nil _
  mapped i ring found := absurd found (nowhere_of_index index i)
  distinct i _ ring found := absurd found (nowhere_of_index index i)
  refs ring := by
    rw [Shared.owned, ringMap, if_neg List.not_mem_nil, place]
    exact refs ring
  flagged ring member := by
    rw [ringMap] at member
    exact absurd member List.not_mem_nil

theorem retire_ring (ring : RingId) : (engine.retire.obj ring).ring = (engine.obj ring).ring := by
  simp only [retire, obj]
  split <;> rfl

theorem retire_steady : Shared.Steady engine.shared engine.retire.shared :=
  ⟨fun _ => rfl, fun ring => congrArg (·.capacity) (retire_ring ring),
    fun ring => congrArg (·.head) (retire_ring ring),
    fun ring => congrArg (·.tail) (retire_ring ring)⟩

theorem Sound.retire (sound : engine.Sound) (place : engine.pc = .idle)
    (index : engine.index = []) : engine.retire.Sound := by
  have entries : engine.tso.entries = [] := sound.tracked.buffered (by rw [place]; rfl)
  refine ⟨.emptied place index rfl fun ring => ?_,
    sound.tracked.emptied retire_steady place index entries⟩
  have counted := sound.registered.refs ring
  rw [place, Shared.owned] at counted
  simp only [Engine.retire, obj]
  split
  · rename_i member
    rw [if_pos member] at counted
    exact (congrArg (· - 1) counted).trans (Nat.add_sub_cancel _ 1)
  · rename_i member
    rw [if_neg member] at counted
    exact counted

theorem Sound.renew (sound : engine.Sound) (gone : engine.Gone) (capacity : UInt32)
    (timesource : UInt64) : (engine.renew capacity timesource).Sound := by
  refine ⟨.emptied rfl rfl rfl fun ring => ?_,
    sound.tracked.emptied ⟨fun _ => rfl, fun _ => rfl, fun _ => rfl, fun _ => rfl⟩ rfl rfl rfl⟩
  have counted := sound.registered.refs ring
  rw [gone.place, Shared.owned, gone.ringMap, if_neg List.not_mem_nil] at counted
  exact counted

/-- Nothing of a ring is in the hands of an engine without an index. -/
theorem SameView.emptied {after : Engine}
    (shared : Shared.Untouched ring engine.shared after.shared) (before : engine.index = [])
    (index : after.index = []) (place : after.pc = .idle) (was : engine.pc = .idle) :
    SameView ring engine after := by
  refine .moved shared (index.trans before.symm) ?_ ?_ ?_
  · exact fun i found => absurd found (nowhere_of_index before i)
  · intro i drains
    rw [was] at drains
    cases drains
  · intro i walks
    rw [place] at walks
    exact walks.elim

theorem Delivering.resetRing (delivering : engine.Delivering ring) (sound : engine.Sound)
    (empty : (engine.obj target).ring.empty = true) (free : engine.walks target = false) :
    (engine.resetRing target).Delivering ring := by
  by_cases same : ring = target
  · subst same
    have committed : (engine.resetRing ring).shared.committed ring = [] := by
      rw [resetRing_committed, if_pos rfl]
    have flushed : (engine.resetRing ring).shared.flushed ring = [] := by
      rw [resetRing_flushed, if_pos rfl]
    have handed : (engine.resetRing ring).handed ring = 0 := congrArg List.length flushed
    have popped : (engine.resetRing ring).shared.popped ring = 0 :=
      Shared.popped_eq (resetRing_spans sound.tracked)
    have settled {slot : UInt32} : ¬ engine.shared.Within ring slot :=
      Shared.not_within_of_empty (sound.tracked.spanned ring) empty
    refine ⟨?_, ?_, ?_, ?_, ?_, ?_, ?_, ?_⟩
    · rw [flushed]
      exact List.nil_prefix
    · intro position value _ read
      rw [committed] at read
      cases read
    · rw [popped]
      exact Nat.zero_le _
    · exact fun _ => popped.trans handed.symm
    · exact fun _ _ _ _ _ _ => popped.trans handed.symm
    · intro i entry slot read valid last
      obtain ⟨owner, owns, within⟩ := sound.tracked.lastrec i entry slot read last
      rw [Option.some.inj (owns.symm.trans valid)] at within
      exact absurd within settled
    · intro i found
      have nothing : (engine.resetRing ring).pending i = [] := by
        refine List.filter_eq_nil_iff.mpr fun te member tagged => ?_
        obtain ⟨owner, owns, within⟩ := sound.tracked.tagged te member
        rw [beq_iff_eq.mp tagged] at owns
        rw [Option.some.inj (owns.symm.trans found)] at within
        exact settled within
      refine ⟨?_, ?_, ?_⟩
      · rw [nothing]
        rfl
      · rw [nothing]
        exact List.Pairwise.nil
      · rw [nothing, handed]
        exact Nat.zero_le _
    · intro i entry walks read valid
      have used : engine.walks ring = true :=
        walks_iff.mpr ⟨i, walks, ringAt_eq_some.mpr ⟨entry, read, valid⟩⟩
      cases used.symm.trans free
  · exact delivering.view (.moved (resetRing_untouched _ same) rfl (fun _ _ => rfl)
      (fun _ place => place) (fun _ walks => ⟨walks, rfl⟩))

theorem Numbered.resetRing (numbered : engine.Numbered ring)
    (delivering : engine.Delivering ring) (idle : (engine.obj target).writer = .idle)
    (unused : ring = target → engine.indexes ring = true → (engine.obj ring).ring.seqnum = 0) :
    (engine.resetRing target).Numbered ring := by
  have reports (count : UInt64)
      (member : .reported ring count ∈ (engine.resetRing target).shared.trace) :
      .reported ring count ∈ engine.shared.trace := (List.mem_filter.mp member).1
  by_cases same : ring = target
  · subst same
    have handed : (engine.resetRing ring).handed ring = 0 := by
      rw [Engine.handed, resetRing_flushed, if_pos rfl]
      rfl
    refine ⟨numbered.enabled, ?_, ?_, ?_,
      fun count member => numbered.unreported count (reports count member)⟩
    · intro position record read
      rw [resetRing_committed, if_pos rfl] at read
      cases read
    · rw [resetRing_committed, if_pos rfl, resetRing_obj, if_pos rfl, RingObj.Numbers, idle]
      rfl
    · intro i entry read owns
      have zero := unused rfl
        (indexes_iff.mpr ⟨i, ringAt_eq_some.mpr ⟨entry, read, owns⟩⟩)
      have writer := numbered.writer
      rw [RingObj.Numbers, idle, zero] at writer
      have expected := numbered.expected i entry read owns
      have below := delivering.handed_le
      rw [handed]
      change 0 = _ at writer
      omega
  · have obj := (resetRing_obj engine target ring).trans (if_neg same)
    refine numbered.frame numbered.enabled rfl ?_ ?_ (by rw [obj]) (by rw [obj]) reports
    · rw [resetRing_committed, if_neg same]
    · rw [resetRing_flushed, if_neg same]

end Engine

namespace Reuse

variable {std : StdSort} {state : Reuse} {ring : RingId}

/-- What every reachable state keeps. -/
structure Settled (state : Reuse) : Prop where
  sound : state.engine.Sound
  gone : state.active = false → state.engine.Gone

theorem idles_iff : state.idles ring = true ↔ (state.engine.obj ring).ring.empty = true ∧
    (state.engine.obj ring).writer = .idle ∧ state.engine.walks ring = false := by
  simp [idles, and_assoc]

/-- What the ring has to be spared: an index entry that starts behind its
first number, a reset under an entry that is past it, more numbers than a
record can hold, and timestamps at the end of their range. -/
structure Meets (std : StdSort) (ring : RingId) (state : Reuse) (action : ReuseAction) : Prop where
  entry : state.engine.indexes ring = false →
    (state.act std action).engine.indexes ring = true → (state.engine.obj ring).oldest = 0
  reset : action = .reset ring → state.engine.indexes ring = true →
    (state.engine.obj ring).ring.seqnum = 0
  numbers : (state.engine.obj ring).ring.seqnum.toNat < 2 ^ 52
  timestamps : ∀ record ∈ state.engine.shared.committed ring,
    record.timestamp.toNat + slotCount (state.engine.obj ring).ring.capacity ≤ 2 ^ 64

instance (action : ReuseAction) : Decidable (Meets std ring state action) :=
  decidable_of_iff
    ((state.engine.indexes ring = false →
      (state.act std action).engine.indexes ring = true → (state.engine.obj ring).oldest = 0) ∧
    (action = .reset ring → state.engine.indexes ring = true →
      (state.engine.obj ring).ring.seqnum = 0) ∧
    (state.engine.obj ring).ring.seqnum.toNat < 2 ^ 52 ∧
    ∀ record ∈ state.engine.shared.committed ring,
      record.timestamp.toNat + slotCount (state.engine.obj ring).ring.capacity ≤ 2 ^ 64)
    ⟨fun ⟨entry, reset, numbers, timestamps⟩ => ⟨entry, reset, numbers, timestamps⟩,
      fun ⟨entry, reset, numbers, timestamps⟩ => ⟨entry, reset, numbers, timestamps⟩⟩

theorem apply_ringMap {shared : Shared} {op : Op} (without : op.needsEngine = false) :
    (shared.apply op).ringMap = shared.ringMap := by
  have pushed (target : RingId) (next : Writer) :
      (shared.pushCommit target next).ringMap = shared.ringMap := by
    rcases shared.pushCommit_cases target next with same | ⟨_, same⟩ | ⟨_, same⟩
    · rw [same]
    · rw [same]
      rfl
    · rw [same]
      rfl
  have left (target : RingId) (event : Event) :
      (shared.leave target event).ringMap = shared.ringMap := by
    simp only [Shared.leave]
    split
    · split <;> rfl
    · rfl
  cases op with
  | addNamed | markDirty | addRing | mask => cases without
  | hold | release | begin | reserve =>
      simp only [Shared.apply]
      split <;> rfl
  | finish | publish =>
      simp only [Shared.apply]
      split
      · rfl
      · exact pushed _ _
  | giveUp | arm | observe =>
      simp only [Shared.apply]
      split
      · split <;> rfl
      · rfl
  | abandon | skipWait => exact left _ _

theorem Settled.act (settled : state.Settled) (action : ReuseAction) :
    (state.act std action).Settled := by
  cases action with
  | act action =>
      cases action with
      | engine trylock =>
          simp only [Reuse.act]
          split
          · rename_i active
            refine ⟨settled.sound.act std (.engine trylock), fun inactive => ?_⟩
            cases active.symm.trans inactive
          · exact settled
      | client op =>
          simp only [Reuse.act]
          split
          · rename_i enabled
            refine ⟨settled.sound.act std (.client op), fun inactive => ?_⟩
            have gone := settled.gone inactive
            rw [show state.active = false from inactive, Bool.false_or, Bool.not_eq_true'] at enabled
            exact ⟨gone.place, gone.index, (apply_ringMap enabled).trans gone.ringMap⟩
          · exact settled
  | activate capacity timesource =>
      simp only [Reuse.act]
      split
      · exact settled
      · rename_i inactive
        refine ⟨settled.sound.renew (settled.gone (by simpa using inactive)) capacity timesource,
          fun inactive => by cases inactive⟩
  | deactivate =>
      simp only [Reuse.act]
      split
      · rename_i enabled
        obtain ⟨place, -, index⟩ := Engine.drained_iff.mp (Bool.and_eq_true_iff.mp enabled).2
        exact ⟨settled.sound.retire place index, fun _ => ⟨place, index, rfl⟩⟩
      · exact settled
  | reset target =>
      simp only [Reuse.act]
      split
      · rename_i enabled
        obtain ⟨empty, -, free⟩ := idles_iff.mp enabled
        refine ⟨settled.sound.resetRing empty free, fun inactive => ?_⟩
        have gone := settled.gone inactive
        exact ⟨gone.place, gone.index, gone.ringMap⟩
      · exact settled

/-- No step takes back that a number was lost. -/
theorem lossless_before (settled : state.Settled) {action : ReuseAction}
    (lossless : Lossless ring (state.act std action).engine.shared.trace) :
    Lossless ring state.engine.shared.trace := by
  cases action with
  | act action =>
      cases action with
      | engine trylock =>
          simp only [Reuse.act] at lossless
          split at lossless
          · obtain ⟨events, trace, -⟩ := (settled.sound.tracked.shape std trylock).trace
            change Lossless ring (state.engine.step std trylock).shared.trace at lossless
            rw [trace] at lossless
            exact lossless.of_append
          · exact lossless
      | client op =>
          simp only [Reuse.act] at lossless
          split at lossless
          · obtain ⟨events, trace, -⟩ := (state.engine.shared.apply_step op).trace
            change Lossless ring (state.engine.shared.apply op).trace at lossless
            rw [trace] at lossless
            exact lossless.of_append
          · exact lossless
  | activate capacity timesource =>
      simp only [Reuse.act] at lossless
      split at lossless
      · exact lossless
      · exact lossless
  | deactivate =>
      simp only [Reuse.act] at lossless
      split at lossless
      · exact lossless
      · exact lossless
  | reset target =>
      simp only [Reuse.act] at lossless
      split at lossless
      · exact ⟨fun member => lossless.undropped (List.mem_filter.mpr ⟨member, rfl⟩),
          fun member => lossless.answered (List.mem_filter.mpr ⟨member, rfl⟩)⟩
      · exact lossless

theorem numbered_act (settled : state.Settled) {action : ReuseAction}
    (meets : Meets std ring state action)
    (lossless : Lossless ring (state.act std action).engine.shared.trace)
    (delivering : state.engine.Delivering ring) (numbered : state.engine.Numbered ring) :
    (state.act std action).engine.Delivering ring ∧ (state.act std action).engine.Numbered ring := by
  have sound := settled.sound
  have entry := meets.entry
  cases action with
  | act action =>
      cases action with
      | engine trylock =>
          simp only [Reuse.act] at lossless entry ⊢
          split
          · rename_i active
            rw [if_pos active] at entry
            have shape := sound.tracked.shape std trylock
            refine ⟨delivering.step sound (climbing_of_bounded meets.timestamps) shape,
              numbered.step sound delivering shape fun nowhere indexed => ?_⟩
            refine entry ?_ (Engine.indexes_iff.mpr indexed)
            rw [Bool.eq_false_iff]
            intro indexed
            obtain ⟨i, found⟩ := Engine.indexes_iff.mp indexed
            exact nowhere i found
          · exact ⟨delivering, numbered⟩
      | client op =>
          simp only [Reuse.act] at lossless ⊢
          split
          · rename_i enabled
            rw [if_pos enabled] at lossless
            have writer := state.engine.shared.apply_writer ring op
            exact ⟨delivering.view (.client sound (state.engine.shared.apply_step op)),
              numbered.client lossless.undropped (lossless.waits writer) meets.numbers writer⟩
          · exact ⟨delivering, numbered⟩
  | activate capacity timesource =>
      simp only [Reuse.act]
      split
      · exact ⟨delivering, numbered⟩
      · rename_i inactive
        have gone := settled.gone (by simpa using inactive)
        exact ⟨delivering.view (.emptied (.of_same rfl rfl rfl) gone.index rfl rfl gone.place),
          numbered.frame rfl gone.index.symm rfl rfl rfl rfl fun _ member => member⟩
  | deactivate =>
      simp only [Reuse.act]
      split
      · rename_i enabled
        obtain ⟨place, -, index⟩ := Engine.drained_iff.mp (Bool.and_eq_true_iff.mp enabled).2
        have writer : (state.engine.retire.obj ring).writer = (state.engine.obj ring).writer := by
          simp only [Engine.retire, Engine.obj]
          split <;> rfl
        exact ⟨delivering.view (.emptied (.of_same (Engine.retire_ring ring) rfl rfl) index index
            place place),
          numbered.frame numbered.enabled rfl rfl rfl writer (Engine.retire_ring ring)
            fun _ member => member⟩
      · exact ⟨delivering, numbered⟩
  | reset target =>
      simp only [Reuse.act]
      split
      · rename_i enabled
        obtain ⟨empty, idle, free⟩ := idles_iff.mp enabled
        refine ⟨delivering.resetRing sound empty free, numbered.resetRing delivering idle ?_⟩
        intro own
        exact meets.reset (by rw [own])
      · exact ⟨delivering, numbered⟩

theorem create_settled {rings : RingId → RingObj} (fresh : ∀ ring, (rings ring).Fresh) :
    (create rings).Settled :=
  ⟨Engine.create_sound 0 false 0 fresh, fun _ => ⟨rfl, rfl, rfl⟩⟩

/-- Across engines, registrations and resets, a ring that lost no number is
never reported to have dropped records, as long as every step spares it. -/
theorem no_phantom_drops (std : StdSort) (rings : RingId → RingObj)
    (fresh : ∀ ring, (rings ring).Fresh) (ring : RingId) (actions : List ReuseAction)
    (meets : AtEach (fun earlier action => Meets std ring ((create rings).after std earlier) action)
      actions)
    (lossless : Lossless ring ((create rings).after std actions).engine.shared.trace) (count : UInt64) :
    .reported ring count ∉ ((create rings).after std actions).engine.shared.trace := by
  have settled (actions : List ReuseAction) : ((create rings).after std actions).Settled :=
    runs_invariant (create_settled fresh) (fun _ action holds => holds.act action) actions
  suffices both : ((create rings).after std actions).engine.Delivering ring ∧
      ((create rings).after std actions).engine.Numbered ring from both.2.unreported count
  induction actions using List.reverseRecOn with
  | nil =>
      exact ⟨Engine.create_delivering 0 false 0 fresh ring, Engine.create_numbered 0 0 fresh ring⟩
  | append_singleton actions last ih =>
      have spared := meets actions last [] rfl
      rw [after, runs_concat] at lossless ⊢
      obtain ⟨delivering, numbered⟩ := ih meets.of_append (lossless_before (settled actions) lossless)
      exact numbered_act (settled actions) spared lossless delivering numbered

/-- The default ring, with room for three records. -/
def defaultRing : RingObj :=
  { RingObj.made 3 false (ascii "DEFAULT") with immortal := true, refcnt := 0, clients := 0 }

theorem defaultRing_fresh : defaultRing.Fresh := ⟨⟨3, _, ⟨2, rfl⟩, rfl⟩, rfl, rfl⟩

/-- The default engine is activated, and one record goes out through it. -/
def activeRun : List ReuseAction :=
  [.activate 4 0, .act (.client (.hold 0)), .act (.client (.addRing 0)),
    .act (.client (.begin 0 { Post.zeroRecord 256 with timestamp := 5 })),
    .act (.client (.finish 0))] ++ List.replicate 10 (.act (.engine true))

/-- The engine drops the default ring as an orphan and ends. -/
def inactiveRun : List ReuseAction :=
  [.act (.client (.release 0))] ++ List.replicate 20 (.act (.engine true)) ++ [.deactivate]

theorem no_phantom_drops_first_activation :
    let state := (create fun _ => defaultRing).after .insertion activeRun
    (state.engine.shared.flushed 0).length = 1 ∧
      .reported 0 1 ∉ state.engine.shared.trace := by
  intro state
  refine ⟨by decide +kernel, ?_⟩
  exact no_phantom_drops .insertion _ (fun _ => defaultRing_fresh) 0 activeRun (by decide +kernel)
    ⟨by decide +kernel, by decide +kernel⟩ 1

/-- The default ring keeps its counter while the second engine starts to count
from 0. -/
theorem second_activation_reports_drop :
    let state := (create fun _ => defaultRing).after .insertion
      (activeRun ++ inactiveRun ++ activeRun)
    defaultRing.Fresh ∧
    Lossless 0 state.engine.shared.trace ∧ .reported 0 1 ∈ state.engine.shared.trace ∧
    state.engine.stats.recsDropped = 1 :=
  ⟨defaultRing_fresh, ⟨by decide +kernel, by decide +kernel⟩, by decide +kernel,
    by decide +kernel⟩

end Reuse

end Hogl.Polling
