import Hogl.Engine.Shapes

namespace Hogl.Polling

open Hogl.Data Hogl.Ring

/-! # A writer that blocks on a full ring

The writer of one blocking ring tests for room outside the mutex of
`block()`, and the engine calls `unblock()` for the rings it has committed in
the running poll.  Here the test, `block()`, the commit of the head and
`unblock()` are separate steps; all other steps are those of the engine and
its clients.
-/

/-- Where the writer stands in `push_commit`. -/
inductive Wait where
  | running
  /-- It has seen the ring full and is about to call `block()`. -/
  | tested
  /-- It waits on the condition and has not been signalled. -/
  | waiting
  | signalled
deriving Repr, DecidableEq

structure Blocking where
  engine : Engine
  wait : Wait
  /-- `_block_active`. -/
  active : Bool
  /-- The engine has committed the head of the ring and not called `unblock()` yet. -/
  unblocking : Bool

inductive BlockAction where
  | engine (trylock : Bool)
  | client (op : Op)
  /-- The writer enters `block()`. -/
  | block
  /-- The writer returns from it. -/
  | wake
deriving Repr, DecidableEq

/-- The ring whose writer takes this step. -/
def Op.writer : Op → Option RingId
  | .begin ring _ | .finish ring | .reserve ring | .giveUp ring | .arm ring _ _ _ _ | .publish ring
  | .observe ring | .abandon ring | .skipWait ring => some ring
  | _ => none

/-- The step is a `push_commit` into a blocking ring that is full. -/
def Shared.findsFull (shared : Shared) (ring : RingId) (op : Op) : Bool :=
  let obj := shared.rings ring
  obj.clients != 0 && (op == .finish ring && obj.writer == .filled ||
    op == .publish ring && obj.writer == .armed) &&
    obj.ring.blocking && obj.ring.head == obj.ring.tail

/-- The next step of the engine commits the head of the ring. -/
def Engine.commitsHead (engine : Engine) (ring : RingId) : Bool :=
  match engine.pc with
  | .commit i => (engine.index[i]?).any fun entry => entry.lastrec.isSome && entry.ring == some ring
  | _ => false

/-- The engine has flushed a record of the ring and not committed its head since. -/
def Engine.holdsLastrec (engine : Engine) (ring : RingId) : Bool :=
  engine.index.any fun entry => entry.lastrec.isSome && entry.ring == some ring

namespace Blocking

variable (std : StdSort) (ring : RingId)

def unblock (state : Blocking) : Blocking :=
  if state.active then
    { state with
      unblocking := false
      active := false
      wait := if state.wait = .waiting then .signalled else state.wait }
  else { state with unblocking := false }

def act (state : Blocking) : BlockAction → Blocking
  | .engine trylock =>
      if state.unblocking then state.unblock
      else { state with
        engine := state.engine.act std (.engine trylock)
        unblocking := state.engine.commitsHead ring }
  | .client op =>
      if op.writer = some ring ∧ state.wait ≠ .running then state
      else if state.engine.shared.findsFull ring op then { state with wait := .tested }
      else { state with engine := state.engine.act std (.client op) }
  | .block => if state.wait = .tested then { state with wait := .waiting, active := true } else state
  | .wake => if state.wait = .signalled then { state with wait := .running } else state

def create (capacity : UInt32) (timesource : UInt64) (rings : RingId → RingObj) : Blocking where
  engine := .create capacity false timesource rings
  wait := .running
  active := false
  unblocking := false

def after (start : Blocking) (actions : List BlockAction) : Blocking :=
  runs (act std ring) start actions

/-- The engine has still to call `unblock()` for the ring in the running poll. -/
def unblockLeft (state : Blocking) : Bool := state.unblocking || state.engine.holdsLastrec ring

/-- Nothing of the ring is left to flush and no `unblock()` is to come.  What
was flushed without being consumed leaves an `unblock()` to come, so that
without one the ring holds unflushed records or none. -/
def quiet (state : Blocking) : Bool :=
  (state.engine.obj ring).ring.empty && !state.unblockLeft ring

/-- The writer waits for a signal that never comes. -/
def Stuck (state : Blocking) : Prop := state.wait = .waiting ∧ state.quiet ring = true

/-- The writer enters `block()` after the engine has finished with its ring. -/
def BlocksLate (state : Blocking) (action : BlockAction) : Prop :=
  action = .block ∧ state.wait = .tested ∧ state.quiet ring = true

end Blocking

theorem Shared.apply_elsewhere {shared : Shared} {ring : RingId} {op : Op}
    (elsewhere : op.writer ≠ some ring) :
    ((shared.apply op).rings ring).ring = (shared.rings ring).ring := by
  have other {target : RingId} (same : op.writer = some target) (obj : RingObj) :
      (shared.setRing target obj).rings ring = shared.rings ring := by
    apply setRing_elsewhere
    rintro rfl
    exact elsewhere same
  cases op with
  | addNamed target =>
      simp only [apply]
      split
      · rfl
      · split
        · exact register_ring target _ ring
        · rw [release_ring, hold_ring]
  | markDirty target =>
      simp only [apply]
      split <;> rfl
  | addRing target =>
      simp only [apply]
      split
      · rfl
      · split
        · exact register_ring target _ ring
        · rfl
  | hold target =>
      simp only [apply]
      split
      · exact hold_ring target ring
      · rfl
  | release target =>
      simp only [apply]
      split
      · rfl
      · exact release_ring target ring
  | begin target record | reserve target =>
      simp only [apply]
      split
      · rfl
      · exact congrArg RingObj.ring (other rfl _)
  | finish target | publish target =>
      simp only [apply]
      split
      · rfl
      · rcases shared.pushCommit_cases target _ with same | ⟨-, same⟩ | ⟨-, same⟩ <;> rw [same]
        · exact congrArg RingObj.ring (other rfl _)
        · exact congrArg RingObj.ring (other rfl _)
  | giveUp target | arm target timestamp type arg1 arg2 | observe target =>
      simp only [apply]
      split
      · split
        · rfl
        · exact congrArg RingObj.ring (other rfl _)
      · rfl
  | abandon target | skipWait target =>
      simp only [apply, leave]
      split
      · split
        · rfl
        · exact congrArg RingObj.ring (other rfl _)
      · rfl
  | mask dropmark tsofullmark => rfl

namespace Engine

variable {engine : Engine} {ring : RingId}

theorem holdsLastrec_iff : engine.holdsLastrec ring = true ↔
    ∃ (i : Nat) (entry : IndexEntry), engine.index[i]? = some entry ∧ entry.ring = some ring ∧
      entry.lastrec ≠ none := by
  simp only [holdsLastrec, List.any_eq_true, Bool.and_eq_true, beq_iff_eq, Option.isSome_iff_ne_none]
  constructor
  · intro ⟨entry, member, last, valid⟩
    obtain ⟨i, found⟩ := List.getElem?_of_mem member
    exact ⟨i, entry, found, valid, last⟩
  · intro ⟨i, entry, found, valid, last⟩
    exact ⟨entry, List.mem_of_getElem? found, last, valid⟩

/-- An update of an index entry that neither moves it to another ring nor
forgets its `lastrec`. -/
theorem holdsLastrec_set {next : Engine} {i : Nat} {entry updated : IndexEntry}
    (holds : engine.holdsLastrec ring = true) (found : engine.index[i]? = some entry)
    (index : next.index = engine.index.set i updated) (same : updated.ring = entry.ring)
    (last : entry.lastrec ≠ none → updated.lastrec ≠ none) : next.holdsLastrec ring = true := by
  obtain ⟨j, other, read, valid, some'⟩ := holdsLastrec_iff.mp holds
  apply holdsLastrec_iff.mpr
  by_cases equal : i = j
  · subst equal
    obtain rfl : entry = other := Option.some.inj (found.symm.trans read)
    refine ⟨i, updated, ?_, same.trans valid, last some'⟩
    rw [index, List.getElem?_set_self (List.getElem?_eq_some_iff.mp found).1]
  · refine ⟨j, other, ?_, valid, some'⟩
    rw [index, List.getElem?_set_ne equal, read]

theorem commitsHead_iff {i : Nat} {entry : IndexEntry} (place : engine.pc = .commit i)
    (found : engine.index[i]? = some entry) : engine.commitsHead ring = true ↔
      entry.lastrec ≠ none ∧ entry.ring = some ring := by
  simp [commitsHead, place, found, Option.isSome_iff_ne_none]

end Engine

namespace Engine.EngineStep

variable {engine next : Engine} {std : StdSort} {ring : RingId}

/-- A `lastrec` is forgotten only where the head of its ring is committed. -/
theorem lastrec_kept (sound : engine.Sound) (step : engine.EngineStep std next)
    (holds : engine.holdsLastrec ring = true) (keeps : engine.commitsHead ring = false) :
    next.holdsLastrec ring = true := by
  cases step with
  | polled | orphaned | unlocked | skipped | exhausted | flushing | walked | passedOver | emptied
  | untouched | settled | finished | released => exact holds
  | rebuilt place =>
      obtain ⟨i, entry, found, -, last⟩ := holdsLastrec_iff.mp holds
      have scanned := sound.tracked.recScanned i entry found last
      rw [place] at scanned
      exact scanned.elim
  | reset _ found => exact holdsLastrec_set holds found rfl rfl id
  | pushed _ here => exact holdsLastrec_set holds here.found rfl rfl id
  | @filled i tsoTs entry owner passed limit _ here =>
      have kept : (Engine.flushFullTso (engine.pushRecord i entry (engine.beyond entry owner passed)
          (engine.entryFor i tsoTs owner passed)) std i
            (engine.entryFor i tsoTs owner passed).timestamp).index =
          engine.index.set i { entry with pit := engine.beyond entry owner passed } := by
        change (Engine.markTsoFull _).index = _
        rw [markTsoFull_index]
        rfl
      exact holdsLastrec_set holds here.found kept rfl id
  | @popped left caller te rest entry owner _ _ found valid _ =>
      have index := @flushEntry_index (engine.popTo left caller rest) te entry owner found valid
      exact holdsLastrec_set holds found index rfl fun _ => Option.some_ne_none _
  | @returned _ caller => cases caller <;> exact holds
  | @drained i entry owner passed _ _ here =>
      exact @holdsLastrec_set _ _ _ i entry { entry with pit := engine.beyond entry owner passed }
        holds here.found (by rw [flushRecord_index]; rfl) rfl id
  | drainCommitted place here =>
      obtain ⟨i, entry, found, -, last⟩ := holdsLastrec_iff.mp holds
      have none := (sound.tracked.notso (sound.tracked.drains _ place)).2.1 entry
        (List.mem_of_getElem? found)
      exact absurd none last
  | reaped place found valid =>
      rw [killOrphan_eq found valid]
      obtain ⟨j, other, read, owner, last⟩ := holdsLastrec_iff.mp holds
      apply holdsLastrec_iff.mpr
      refine ⟨j, other, ?_, owner, last⟩
      change (engine.index.set _ _)[j]? = _
      rw [List.getElem?_set_ne, read]
      rintro rfl
      exact last ((sound.tracked.clean _ place).2 other read)
  | @committed i entry owner slot place found last valid _ =>
      obtain ⟨j, other, read, owned, some'⟩ := holdsLastrec_iff.mp holds
      apply holdsLastrec_iff.mpr
      refine ⟨j, other, ?_, owned, some'⟩
      change (engine.index.set _ _)[j]? = _
      rw [List.getElem?_set_ne, read]
      rintro rfl
      have commits := (commitsHead_iff place read).mpr ⟨some', owned⟩
      rw [keeps] at commits
      cases commits

/-- The engine consumes records of a ring only where it commits its head. -/
theorem empty_kept (sound : engine.Sound) (enabled : engine.tsoDisabled = false)
    (step : engine.EngineStep std next) (keeps : engine.commitsHead ring = false) :
    (next.obj ring).ring.empty = (engine.obj ring).ring.empty := by
  have objs := step.objs ring
  have undrained (i : Nat) : engine.pc ≠ .drain i := by
    intro place
    rw [sound.tracked.drains i place] at enabled
    cases enabled
  have head : (next.obj ring).ring.head = (engine.obj ring).ring.head := by
    cases step with
    | polled | rebuilt | reset | pushed | orphaned | unlocked | skipped | exhausted | flushing
    | walked | passedOver | emptied | untouched | settled | finished => rfl
    | @filled i tsoTs entry owner passed limit =>
        change ((Engine.markTsoFull _).shared.rings ring).ring.head = _
        rw [markTsoFull_rings]
        rfl
    | @popped left caller te rest entry owner _ _ found valid _ =>
        exact (@flushEntry_handed (engine.popTo left caller rest) te _ owner found
          valid).steady.head ring
    | @returned _ caller => cases caller <;> rfl
    | drained place | drainCommitted place => exact absurd place (undrained _)
    | reaped _ found valid =>
        rw [killOrphan_eq found valid]
        rfl
    | @released i owner =>
        have ringEq : ((engine.releaseOrphan i owner).obj ring).ring = (engine.obj ring).ring :=
          Shared.setRing_ring (by rfl) ring
        exact congrArg (·.head) ringEq
    | @committed i entry owner slot place found last valid _ =>
        have different : ring ≠ owner := by
          rintro rfl
          have commits := (commitsHead_iff place found).mpr ⟨last ▸ Option.some_ne_none slot, valid⟩
          rw [keeps] at commits
          cases commits
        exact congrArg (·.ring.head) (Shared.setRing_elsewhere _ different)
  rw [Ringbuf.empty, Ringbuf.empty, head, objs.tail, objs.capacity]

end Engine.EngineStep

namespace Blocking

variable {std : StdSort} {ring : RingId} {state : Blocking}

/-- What holds in every state, stuck or not. -/
structure Known (state : Blocking) : Prop where
  sound : state.engine.Sound
  enabled : state.engine.tsoDisabled = false
  active : state.wait = .waiting → state.active = true

theorem Known.step (known : state.Known) (action : BlockAction) :
    (state.act std ring action).Known := by
  cases action with
  | engine trylock =>
      simp only [act]
      split
      · rw [unblock]
        split
        · refine ⟨known.sound, known.enabled, fun waiting => ?_⟩
          dsimp only at waiting
          split at waiting
          · cases waiting
          · exact absurd waiting ‹_›
        · exact ⟨known.sound, known.enabled, known.active⟩
      · exact ⟨known.sound.act std (.engine trylock),
          (known.sound.tracked.shape std trylock).mode.trans known.enabled, known.active⟩
  | client op =>
      simp only [act]
      split
      · exact known
      · split
        · exact ⟨known.sound, known.enabled, fun waiting => by cases waiting⟩
        · exact ⟨known.sound.act std (.client op), known.enabled, known.active⟩
  | block =>
      simp only [act]
      split
      · exact ⟨known.sound, known.enabled, fun _ => rfl⟩
      · exact known
  | wake =>
      simp only [act]
      split
      · exact ⟨known.sound, known.enabled, fun waiting => by cases waiting⟩
      · exact known

theorem create_known (std : StdSort) (ring : RingId) (capacity : UInt32) (timesource : UInt64)
    {rings : RingId → RingObj} (fresh : ∀ ring, (rings ring).Fresh) (actions : List BlockAction) :
    ((create capacity timesource rings).after std ring actions).Known := by
  refine runs_invariant ?_ (fun _ action known => known.step action) actions
  exact ⟨Engine.create_sound capacity false timesource fresh, rfl, fun waiting => by cases waiting⟩

/-- While a ring has neither an unflushed record nor an `unblock()` to come, a
step of the engine finds it so. -/
theorem quiet_of_engine (known : state.Known) (trylock : Bool) (idle : state.unblocking = false)
    (quiet : (state.act std ring (.engine trylock)).quiet ring = true) :
    state.quiet ring = true := by
  have shape := known.sound.tracked.shape std trylock
  simp only [act, idle, Bool.false_eq_true, if_false, Blocking.quiet, unblockLeft, Bool.and_eq_true,
    Bool.not_eq_true', Bool.or_eq_false_iff] at quiet ⊢
  obtain ⟨empty, keeps, forgotten⟩ := quiet
  refine ⟨?_, trivial, ?_⟩
  · rw [← shape.empty_kept known.sound known.enabled keeps]
    exact empty
  · by_contra holds
    have kept := shape.lastrec_kept known.sound (Bool.eq_true_of_not_eq_false holds) keeps
    exact Bool.false_ne_true (forgotten.symm.trans kept)

theorem stuck_step (known : state.Known) (action : BlockAction)
    (stuck : (state.act std ring action).Stuck ring) :
    state.Stuck ring ∨ state.BlocksLate ring action := by
  obtain ⟨waiting, quiet⟩ := stuck
  cases action with
  | engine trylock =>
      cases pending : state.unblocking with
      | true =>
          -- A waiting writer is an active one, and `unblock()` signals it.
          simp only [act, pending, if_true, unblock] at waiting
          split at waiting
          · dsimp only at waiting
            split at waiting
            · cases waiting
            · exact absurd waiting ‹_›
          · rename_i inactive
            exact absurd (known.active waiting) inactive
      | false =>
          refine .inl ⟨?_, quiet_of_engine known trylock pending quiet⟩
          simpa only [act, pending, Bool.false_eq_true, if_false] using waiting
  | client op =>
      simp only [act] at waiting quiet
      split at waiting
      · rename_i asleep
        rw [if_pos asleep] at quiet
        exact .inl ⟨waiting, quiet⟩
      · rename_i allowed
        split at waiting
        · cases waiting
        · rename_i room
          rw [if_neg allowed, if_neg room] at quiet
          have elsewhere : op.writer ≠ some ring := fun own =>
            allowed ⟨own, fun running => by rw [running] at waiting; cases waiting⟩
          have kept := @Shared.apply_elsewhere state.engine.shared ring op elsewhere
          refine .inl ⟨waiting, ?_⟩
          simp only [Blocking.quiet, Engine.obj, Engine.act] at quiet ⊢
          rwa [kept] at quiet
  | block =>
      simp only [act] at waiting quiet
      split at waiting
      · rename_i tested
        rw [if_pos tested] at quiet
        exact .inr ⟨rfl, tested, quiet⟩
      · rename_i untested
        rw [if_neg untested] at quiet
        exact .inl ⟨waiting, quiet⟩
  | wake =>
      simp only [act] at waiting quiet
      split at waiting
      · cases waiting
      · rename_i asleep
        rw [if_neg asleep] at quiet
        exact .inl ⟨waiting, quiet⟩

theorem stuck_of_blocksLate (action : BlockAction) (late : state.BlocksLate ring action) :
    (state.act std ring action).Stuck ring := by
  obtain ⟨rfl, tested, quiet⟩ := late
  simp only [act, if_pos tested]
  exact ⟨rfl, quiet⟩

/-- In a run the writer is never left waiting for good if and only if it never
enters `block()` after the engine has flushed all its records and is done with
`unblock()` for this poll. -/
theorem never_stuck_iff (std : StdSort) (ring : RingId) (capacity : UInt32) (timesource : UInt64)
    (rings : RingId → RingObj) (fresh : ∀ ring, (rings ring).Fresh) (actions : List BlockAction) :
    (∀ earlier, earlier <+: actions →
      ¬ ((create capacity timesource rings).after std ring earlier).Stuck ring) ↔
    AtEach (fun earlier action => ¬ ((create capacity timesource rings).after std ring
      earlier).BlocksLate ring action) actions := by
  refine @runs_safe_iff _ _ (act std ring) Known (fun state => ¬ state.Stuck ring)
    (BlocksLate ring) _ (create_known std ring capacity timesource fresh) ?_ ?_ ?_ actions
  · intro ⟨waiting, _⟩
    cases waiting
  · exact fun state action known safe onTime stuck =>
      (stuck_step known action stuck).elim safe onTime
  · exact fun state action _ late safe => safe (stuck_of_blocksLate action late)

/-- A ring with room for one record: the writer finds it full, and the engine
flushes the record and calls `unblock()` before the writer enters `block()`. -/
def lostWakeupRun : List BlockAction :=
  [.client (.addNamed 0), .client (.markDirty 0), .client (.begin 0 (Post.zeroRecord 256)),
    .client (.finish 0), .client (.begin 0 (Post.zeroRecord 256)), .client (.finish 0)] ++
    List.replicate 12 (.engine true) ++ [.block]

theorem never_stuck_iff_first_post :
    let state := (create 4 0 fun _ => .made 1 true (ascii "ring")).after .insertion 0
      (lostWakeupRun.take 18)
    state.wait = .tested ∧ ¬ state.Stuck 0 := by
  intro state
  refine ⟨by decide +kernel, ?_⟩
  refine (never_stuck_iff .insertion 0 4 0 _ (fun _ => RingObj.made_fresh ⟨1, rfl⟩ _ _)
    (lostWakeupRun.take 18)).mpr ?_ _ (List.prefix_refl _)
  intro earlier action later split late
  have blocks : BlockAction.block ∈ lostWakeupRun.take 18 := by
    rw [split, ← late.1]
    exact List.mem_append_right _ List.mem_cons_self
  revert blocks
  decide +kernel

theorem writer_blocks_for_good :
    ¬ ∀ actions, ¬ ((create 4 0 fun _ => .made 1 true (ascii "ring")).after .insertion 0
      actions).Stuck 0 := by
  intro safe
  exact safe lostWakeupRun ⟨by decide +kernel, by decide +kernel⟩

end Blocking

end Hogl.Polling
