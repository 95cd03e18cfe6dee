import Hogl.Engine.Steps

namespace Hogl.Polling

open Hogl.Data Hogl.Ring

/-! # The timesources of the registered rings

`add_ring(name)` copies the engine's timesource into the ring it makes before
it takes the mutex under which it inserts the ring.  Here the two are separate
steps; everything else is a step of the engine or of a client as before.
-/

/-- How far the `add_ring(name)` call that makes a ring has come. -/
inductive Addition where
  | unmade
  /-- The ring has its timesource and is not inserted yet. -/
  | copied
  | decided
deriving Repr, DecidableEq

structure Registering where
  engine : Engine
  additions : RingId → Addition

inductive RegisterAction where
  /-- `new ringbuf(name, opts)` and the copy of the timesource. -/
  | make (ring : RingId)
  | act (action : Action)
deriving Repr, DecidableEq

namespace Registering

/-- An `add_ring(name)` call enters its critical section behind the copy. -/
def act (std : StdSort) (state : Registering) : RegisterAction → Registering
  | .make ring =>
      if state.additions ring = .unmade ∧ ring ∉ state.engine.shared.ringMap then
        { engine := state.engine.setRing ring
            { state.engine.obj ring with timesource := state.engine.shared.timesource }
          additions := Function.update state.additions ring .copied }
      else state
  | .act (.client (.addNamed ring)) =>
      if state.additions ring = .copied then
        { engine := state.engine.act std (.client (.addNamed ring))
          additions := Function.update state.additions ring .decided }
      else state
  | .act action => { state with engine := state.engine.act std action }

def create (capacity : UInt32) (tsoDisabled : Bool) (timesource : UInt64)
    (rings : RingId → RingObj) : Registering where
  engine := .create capacity tsoDisabled timesource rings
  additions _ := .unmade

def after (std : StdSort) (start : Registering) (actions : List RegisterAction) : Registering :=
  runs (act std) start actions

end Registering

/-- Every registered ring is on the engine's timesource. -/
def Shared.Timed (shared : Shared) : Prop :=
  ∀ ring ∈ shared.ringMap, (shared.rings ring).timesource = shared.timesource

namespace Shared.Timed

variable {shared : Shared}

theorem setRing (timed : shared.Timed) {ring : RingId} {obj : RingObj}
    (same : obj.timesource = (shared.rings ring).timesource) : (shared.setRing ring obj).Timed := by
  intro other member
  rw [setRing_rings]
  split
  · rename_i equal
    subst equal
    exact same.trans (timed other member)
  · exact timed other member

theorem register (timed : shared.Timed) {ring : RingId} :
    (shared.register ring shared.timesource).Timed := by
  intro other member
  change ((shared.setRing ring _).rings other).timesource = _
  rw [setRing_rings]
  split
  · rfl
  · rename_i different
    exact timed other ((List.mem_cons.mp ((insertKey_perm ring _).mem_iff.mp
      member)).resolve_left different)

theorem pushCommit (timed : shared.Timed) (ring : RingId) (next : Writer) :
    (shared.pushCommit ring next).Timed := by
  rcases shared.pushCommit_cases ring next with same | ⟨-, same⟩ | ⟨-, same⟩ <;> rw [same]
  · exact timed
  · exact timed.setRing rfl
  · exact timed.setRing rfl

theorem hold (timed : shared.Timed) (ring : RingId) : (shared.hold ring).Timed := timed.setRing rfl

theorem release (timed : shared.Timed) (ring : RingId) : (shared.release ring).Timed :=
  timed.setRing rfl

theorem leave (timed : shared.Timed) (ring : RingId) (event : Event) :
    (shared.leave ring event).Timed := by
  simp only [Shared.leave]
  split
  · split
    · exact timed
    · exact timed.setRing rfl
  · exact timed

/-- Only `add_ring(name)` brings in a timesource that is not the engine's. -/
theorem apply (timed : shared.Timed) (op : Op)
    (current : ∀ ring, op = .addNamed ring → ring ∉ shared.ringMap →
      shared.findRing (shared.rings ring).name = none → (shared.rings ring).clients ≠ 0 →
      (shared.rings ring).timesource = shared.timesource) : (shared.apply op).Timed := by
  cases op with
  | addNamed ring =>
      simp only [Shared.apply]
      split
      · exact timed
      · rename_i enabled
        split
        · rename_i absent
          rw [current ring rfl (fun inside => enabled (.inr inside)) absent
            fun none => enabled (.inl none)]
          exact timed.register
        · exact (timed.hold _).release ring
  | addRing ring =>
      simp only [Shared.apply]
      split
      · exact timed
      · split
        · exact timed.register
        · exact timed
  | markDirty ring =>
      simp only [Shared.apply]
      split <;> exact timed
  | hold ring =>
      simp only [Shared.apply]
      split
      · exact timed.hold ring
      · exact timed
  | release ring =>
      simp only [Shared.apply]
      split
      · exact timed
      · exact timed.release ring
  | begin ring record | reserve ring =>
      simp only [Shared.apply]
      split
      · exact timed
      · exact timed.setRing rfl
  | finish ring | publish ring =>
      simp only [Shared.apply]
      split
      · exact timed
      · exact timed.pushCommit ring _
  | giveUp ring | arm ring timestamp type arg1 arg2 | observe ring =>
      simp only [Shared.apply]
      split
      · split
        · exact timed
        · exact timed.setRing rfl
      · exact timed
  | abandon ring | skipWait ring => exact timed.leave ring _
  | mask dropmark tsofullmark => exact timed

end Shared.Timed

namespace Engine

variable {engine : Engine}

theorem withRing_timed (timed : engine.shared.Timed) {i : Nat} {body : IndexEntry → RingId → Engine}
    (each : ∀ entry ring, (body entry ring).shared.Timed) :
    (engine.withRing i body).shared.Timed := by
  simp only [withRing]
  split
  · split
    · exact each _ _
    · exact timed
  · exact timed

theorem switchTimesource_timed (engine : Engine) (ring : RingId) (record : Record) :
    (engine.switchTimesource ring record).shared.Timed := by
  intro other member
  have mapped : other ∈ engine.shared.ringMap := member
  simp only [switchTimesource, mapped, if_true]

theorem flushRecord_timed (timed : engine.shared.Timed) (ring : RingId) (slot : UInt32) :
    (engine.flushRecord ring slot).shared.Timed := by
  simp only [flushRecord]
  split
  · split
    · exact (switchTimesource_timed _ ring _).setRing rfl
    · exact timed.setRing rfl
  · exact timed

theorem reportDrops_timed (timed : engine.shared.Timed) (ring : RingId) (record : Record)
    (expected : UInt64) : (engine.reportDrops ring record expected).shared.Timed := by
  simp only [reportDrops]
  split
  · exact timed
  · split <;> exact timed

theorem flushEntry_timed (timed : engine.shared.Timed) (te : TsoEntry) :
    (engine.flushEntry te).shared.Timed := by
  refine withRing_timed timed fun entry ring => ?_
  apply flushRecord_timed
  exact reportDrops_timed timed ring _ entry.seqnum

theorem markTsoFull_timed (timed : engine.shared.Timed) : engine.markTsoFull.shared.Timed := by
  rcases engine.markTsoFull_cases with same | ⟨event, -, same⟩ | same <;> rw [same] <;> exact timed

theorem commitPit_timed (timed : engine.shared.Timed) (i : Nat) (entry : IndexEntry) (ring : RingId)
    (pit : PopIterator) : (engine.commitPit i entry ring pit).shared.Timed := timed.setRing rfl

theorem walkRing_timed (timed : engine.shared.Timed) (std : StdSort) (i : Nat) (tsoTs : UInt64) :
    (engine.walkRing std i tsoTs).shared.Timed := by
  refine withRing_timed timed fun entry ring => ?_
  split
  · exact timed
  · dsimp only
    split
    · apply markTsoFull_timed
      exact timed
    · exact timed

theorem doFlushTso_timed (timed : engine.shared.Timed) (left : Nat) (caller : Caller) :
    (engine.doFlushTso left caller).shared.Timed := by
  simp only [doFlushTso]
  split
  · apply flushEntry_timed
    exact timed
  · cases caller <;> exact timed

theorem drainRing_timed (timed : engine.shared.Timed) (i : Nat) :
    (engine.drainRing i).shared.Timed := by
  refine withRing_timed timed fun entry ring => ?_
  split
  · exact commitPit_timed timed i entry ring entry.pit
  · apply flushRecord_timed
    exact timed

theorem commitRing_timed (timed : engine.shared.Timed) (i : Nat) :
    (engine.commitRing i).shared.Timed := by
  simp only [commitRing]
  split
  · exact timed
  · split
    · rename_i entry _ _ _ slot ring _ _
      exact commitPit_timed timed i entry ring (entry.pit.rewind slot)
    · exact timed

theorem scanRing_timed (timed : engine.shared.Timed) (std : StdSort) (i : Nat) :
    (engine.scanRing std i).shared.Timed := by
  simp only [scanRing]
  split
  · split <;> exact timed
  · split <;> exact timed

theorem killOrphan_timed (timed : engine.shared.Timed) (i : Nat) (trylock : Bool) :
    (engine.killOrphan i trylock).shared.Timed := by
  simp only [killOrphan]
  split
  · refine withRing_timed timed fun entry ring other member => ?_
    exact timed other (List.mem_of_mem_filter member)
  · exact timed

theorem step_timed (timed : engine.shared.Timed) (std : StdSort) (trylock : Bool) :
    (engine.step std trylock).shared.Timed := by
  simp only [step]
  split
  · exact timed
  · split <;> exact timed
  · exact scanRing_timed timed std _
  · exact walkRing_timed timed std _ _
  · exact doFlushTso_timed timed _ _
  · exact drainRing_timed timed _
  · refine withRing_timed timed fun entry ring => ?_
    split <;> exact timed
  · exact withRing_timed timed fun entry ring => timed
  · exact killOrphan_timed timed _ trylock
  · exact timed.setRing rfl
  · exact commitRing_timed timed _
  · exact timed
  · exact timed

end Engine

namespace Registering

/-- An `add_ring(name)` call is about to insert its ring, and the engine has
left the timesource that the call copied. -/
def InsertsLate (state : Registering) (action : RegisterAction) : Prop :=
  ∃ ring, action = .act (.client (.addNamed ring)) ∧ state.additions ring = .copied ∧
    (state.engine.obj ring).clients ≠ 0 ∧ ring ∉ state.engine.shared.ringMap ∧
    state.engine.shared.findRing (state.engine.obj ring).name = none ∧
    (state.engine.obj ring).timesource ≠ state.engine.shared.timesource

theorem act_timed (std : StdSort) (state : Registering) (action : RegisterAction)
    (timed : state.engine.shared.Timed) (onTime : ¬ state.InsertsLate action) :
    (state.act std action).engine.shared.Timed := by
  cases action with
  | make ring =>
      simp only [act]
      split
      · rename_i enabled
        intro other member
        have different : other ≠ ring := fun same => enabled.2 (same ▸ member)
        change ((state.engine.setRing ring _).obj other).timesource = _
        rw [Engine.obj_setRing, if_neg different]
        exact timed other member
      · exact timed
  | act action =>
      cases action with
      | engine trylock => exact Engine.step_timed timed std trylock
      | client op =>
          by_cases named : ∃ ring, op = .addNamed ring
          · obtain ⟨ring, rfl⟩ := named
            simp only [act]
            split
            · rename_i copied
              refine timed.apply _ ?_
              intro other same outside absent held
              obtain rfl : ring = other := Op.addNamed.inj same
              by_contra late
              exact onTime ⟨ring, rfl, copied, held, outside, absent, late⟩
            · exact timed
          · have plain : state.act std (.act (.client op)) =
                { state with engine := state.engine.act std (.client op) } := by
              cases op with
              | addNamed ring => exact absurd ⟨ring, rfl⟩ named
              | _ => rfl
            rw [plain]
            exact timed.apply op fun ring same => absurd ⟨ring, same⟩ named

theorem act_untimed (std : StdSort) (state : Registering) (action : RegisterAction)
    (late : state.InsertsLate action) : ¬ (state.act std action).engine.shared.Timed := by
  obtain ⟨ring, rfl, copied, held, -, absent, left⟩ := late
  intro timed
  have inserted : (state.act std (.act (.client (.addNamed ring)))).engine.shared =
      { state.engine.shared.register ring (state.engine.obj ring).timesource with
        unmarked := ring :: state.engine.shared.unmarked } := by
    simp only [act, if_pos copied]
    exact Shared.apply_addNamed_absent held absent
  rw [inserted] at timed
  have own := timed ring ((Shared.insertKey_perm ring _).mem_iff.mpr List.mem_cons_self)
  change ((state.engine.shared.setRing ring _).rings ring).timesource = _ at own
  rw [Shared.setRing_rings, if_pos rfl] at own
  exact left own

/-- In a run all registered rings are on the engine's timesource at all times
if and only if no `add_ring(name)` call inserts its ring after the engine has
left the timesource the call copied. -/
theorem registered_rings_timed_iff (std : StdSort) (capacity : UInt32) (tsoDisabled : Bool)
    (timesource : UInt64) (rings : RingId → RingObj) (actions : List RegisterAction) :
    (∀ earlier, earlier <+: actions →
      ((create capacity tsoDisabled timesource rings).after std earlier).engine.shared.Timed) ↔
    AtEach (fun earlier action => ¬ ((create capacity tsoDisabled timesource rings).after std
      earlier).InsertsLate action) actions := by
  refine @runs_safe_iff _ _ (act std) (fun _ => True) (fun state => state.engine.shared.Timed)
    InsertsLate _ (fun _ => trivial) ?_ ?_ ?_ actions
  · intro ring member
    cases member
  · exact fun state action _ timed onTime => act_timed std state action timed onTime
  · exact fun state action _ late => act_untimed std state action late

/-- A ring is made, a timesource change passes through another ring, and the
new ring is inserted behind it. -/
def lateRun : List RegisterAction :=
  [.act (.client (.addRing 1)), .make 0, .act (.client (.reserve 1)),
    .act (.client (.arm 1 7 1 5 0)), .act (.client (.publish 1))] ++
    List.replicate 12 (.act (.engine true)) ++ [.act (.client (.addNamed 0))]

theorem ring_inserted_late_untimed :
    ¬ ∀ actions, ((create 4 false 0 fun ring => .made 3 false [UInt8.ofNat ring]).after .insertion
      actions).engine.shared.Timed := by
  intro timed
  have own := timed lateRun 0 (by decide +kernel)
  revert own
  decide +kernel

end Registering

end Hogl.Polling
