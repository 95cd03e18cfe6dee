import Hogl.Engine.Shapes

namespace Hogl.Polling

open Hogl.Data Hogl.Ring

/-! # The TSO buffer has room

`tsobuf::push` does not check for room and `full()` is an equality, so the
engine relies on every emergency flush making room.
-/

/-- A push finds room, and an emergency flush leaves some. -/
def Event.Fits (size : Nat) : Event → Prop
  | .tsoPush tail => tail < size
  | .tsoFull tail => tail ≠ size
  | _ => True

theorem Event.fits_of_byClient {size : Nat} {event : Event} (byClient : event.byClient) :
    event.Fits size := by
  cases event <;> trivial

theorem Event.fits_of_minor {size : Nat} {event : Event} (minor : event.minor) :
    event.Fits size := by
  cases event <;> trivial

def Pc.flushing : Pc → Bool
  | .doFlush _ _ => true
  | _ => false

namespace Engine

variable {engine : Engine}

/-- The buffer starts at the front of its array and has room, unless it is
being flushed; an emergency flush has half of the array to go. -/
structure Roomy (size : Nat) (engine : Engine) : Prop where
  capacity : engine.tso.capacity = size
  events : ∀ event ∈ engine.shared.trace, event.Fits size
  scanning : engine.pc.flushing = false →
    engine.tso.head = 0 ∧ engine.tso.entries.length < size
  emptying : ∀ left i tsoTs, engine.pc = .doFlush left (.full i tsoTs) →
    engine.tso.head + left = size / 2 ∧ engine.tso.head + engine.tso.entries.length = size

namespace Roomy

variable {size : Nat}

theorem same {after : Engine} {events : List Event} (roomy : engine.Roomy size)
    (outside : engine.pc.flushing = false) (tso : after.tso = engine.tso)
    (trace : after.shared.trace = engine.shared.trace ++ events)
    (fits : ∀ event ∈ events, event.Fits size) (still : after.pc.flushing = false) :
    after.Roomy size := by
  refine ⟨by rw [tso]; exact roomy.capacity, ?_, fun _ => ?_, fun left i tsoTs place => ?_⟩
  · intro event member
    rw [trace] at member
    exact (List.mem_append.mp member).elim (roomy.events event) (fits event)
  · rw [tso]
    exact roomy.scanning outside
  · rw [place] at still
    cases still

theorem moved {pc : Pc} (roomy : engine.Roomy size) (outside : engine.pc.flushing = false)
    (still : pc.flushing = false) : (engine.goto pc).Roomy size :=
  roomy.same outside rfl (List.append_nil _).symm (List.forall_mem_nil _) still

theorem handed_events {before after : Engine} {ring : RingId} {slot : UInt32}
    (handed : Handed before after ring slot)
    (events : ∀ event ∈ before.shared.trace, event.Fits size) :
    ∀ event ∈ after.shared.trace, event.Fits size := by
  obtain ⟨reports, rest, trace, reportsMinor, restMinor⟩ := handed.trace
  intro event member
  rw [trace] at member
  rcases List.mem_append.mp member with early | late
  · rcases List.mem_append.mp early with old | report
    · exact events event old
    · exact Event.fits_of_minor (reportsMinor event report)
  · rcases List.mem_cons.mp late with rfl | minor
    · trivial
    · exact Event.fits_of_minor (restMinor event minor)

theorem push {i : Nat} {entry : IndexEntry} {pit : PopIterator} {te : TsoEntry}
    (roomy : engine.Roomy size) (outside : engine.pc.flushing = false) :
    (engine.pushRecord i entry pit te).tso.capacity = size ∧
    (∀ event ∈ (engine.pushRecord i entry pit te).shared.trace, event.Fits size) ∧
    (engine.pushRecord i entry pit te).tso.head = 0 ∧
    (engine.pushRecord i entry pit te).tso.entries.length = engine.tso.entries.length + 1 := by
  obtain ⟨front, room⟩ := roomy.scanning outside
  refine ⟨roomy.capacity, ?_, front, List.length_append⟩
  intro event member
  rcases List.mem_append.mp member with old | new
  · exact roomy.events event old
  · rw [List.mem_singleton.mp new]
    change engine.tso.tail < size
    rw [Tsobuf.tail, front, Nat.zero_add]
    exact room

theorem flushFull_trace (std : StdSort) {i : Nat} {tsoTs : UInt64}
    (events : ∀ event ∈ engine.shared.trace, event.Fits size) :
    ∀ event ∈ (engine.flushFullTso std i tsoTs).shared.trace, event.Fits size := by
  change ∀ event ∈ engine.markTsoFull.shared.trace, event.Fits size
  have logged {event : Event} (fits : event.Fits size) :
      ∀ other ∈ engine.shared.trace ++ [event], other.Fits size := by
    intro other member
    rcases List.mem_append.mp member with old | new
    · exact events other old
    · rwa [List.mem_singleton.mp new]
  rcases engine.markTsoFull_cases with same | ⟨event, injected, same⟩ | same <;> rw [same]
  · exact events
  · exact logged (Event.fits_of_minor (Event.minor_of_injected injected))
  · exact logged trivial

theorem flushReturn {left : Nat} {caller : Caller} (roomy : engine.Roomy size) (large : 2 ≤ size)
    (place : engine.pc = .doFlush left caller) (past : left = 0 ∨ engine.tso.entries = []) :
    (engine.flushReturn caller).Roomy size := by
  cases caller with
  | full i tsoTs =>
      obtain ⟨half, total⟩ := roomy.emptying left i tsoTs place
      have less : engine.tso.entries.length < size := by
        rcases past with rfl | nothing
        · omega
        · rw [nothing, List.length_nil] at total
          omega
      refine ⟨roomy.capacity, ?_, fun _ => ⟨rfl, less⟩, ?_⟩
      · intro event member
        rcases List.mem_append.mp member with old | new
        · exact roomy.events event old
        · rw [List.mem_singleton.mp new]
          change engine.tso.flip.tail ≠ size
          simp only [Tsobuf.flip, Tsobuf.tail, Nat.zero_add]
          omega
      · intro _ _ _ elsewhere
        cases elsewhere
  | final =>
      refine ⟨roomy.capacity, roomy.events, fun _ => ⟨rfl, ?_⟩, ?_⟩
      · change 0 < size
        omega
      · intro _ _ _ elsewhere
        cases elsewhere

theorem popped {left : Nat} {caller : Caller} {te : TsoEntry} {rest : List TsoEntry}
    {entry : IndexEntry} {ring : RingId} (roomy : engine.Roomy size)
    (place : engine.pc = .doFlush (left + 1) caller) (entries : engine.tso.entries = te :: rest)
    (found : engine.index[te.tag]? = some entry) (valid : entry.ring = some ring) :
    ((engine.popTo left caller rest).flushEntry te).Roomy size := by
  have handed : Handed (engine.popTo left caller rest)
    ((engine.popTo left caller rest).flushEntry te) ring te.slot := flushEntry_handed found valid
  have pc : ((engine.popTo left caller rest).flushEntry te).pc = .doFlush left caller := handed.pc
  refine ⟨?_, handed_events handed roomy.events, ?_, ?_⟩
  · rw [handed.tso]
    exact roomy.capacity
  · rw [pc]
    intro outside
    cases outside
  · rw [pc, handed.tso]
    intro _ i tsoTs same
    cases same
    obtain ⟨half, total⟩ := roomy.emptying (left + 1) i tsoTs place
    rw [entries, List.length_cons] at total
    simp only [popTo]
    omega

theorem step {std : StdSort} {next : Engine} (roomy : engine.Roomy size) (large : 2 ≤ size)
    (shape : engine.EngineStep std next) : next.Roomy size := by
  cases shape with
  | polled place =>
      refine roomy.same (by rw [place]; rfl) rfl rfl (List.forall_mem_singleton.mpr trivial) ?_
      simp only [processRings]
      split <;> rfl
  | rebuilt place =>
      exact roomy.same (by rw [place]; rfl) rfl rfl (List.forall_mem_singleton.mpr trivial) rfl
  | unlocked place | skipped place | exhausted place | walked place | emptied place
  | untouched place | settled place | finished place => exact roomy.moved (by rw [place]; rfl) rfl
  | @passedOver i place =>
      refine roomy.moved ?_ rfl
      cases at' : engine.pc with
      | doFlush =>
          rw [at'] at place
          exact place.elim
      | _ => rfl
  | @flushing i place _ _ =>
      refine ⟨?_, roomy.events, ?_, ?_⟩
      · change (if _ then _ else _ : Tsobuf).capacity = size
        split <;> exact roomy.capacity
      · intro outside
        cases outside
      · intro _ _ _ elsewhere
        cases elsewhere
  | @reset i entry ring place _ _ =>
      refine roomy.same (by rw [place]; rfl) rfl rfl (List.forall_mem_singleton.mpr trivial) ?_
      rw [goto]
      dsimp only
      split <;> rfl
  | @pushed i tsoTs entry ring passed limit place _ _ space =>
      have outside : engine.pc.flushing = false := by rw [place]; rfl
      obtain ⟨capacity, events, front, length⟩ := roomy.push outside
      refine ⟨capacity, events, fun _ => ⟨front, ?_⟩, ?_⟩
      · obtain ⟨front, room⟩ := roomy.scanning outside
        rw [roomy.capacity, Tsobuf.tail, front] at space
        rw [length]
        omega
      · intro _ _ _ elsewhere
        cases elsewhere
  | @filled i tsoTs entry ring passed limit place _ _ full =>
      have outside : engine.pc.flushing = false := by rw [place]; rfl
      obtain ⟨capacity, events, front, length⟩ :=
        @push engine size i entry (engine.beyond entry ring passed)
          (engine.entryFor i tsoTs ring passed) roomy outside
      refine ⟨capacity, flushFull_trace std events, ?_, ?_⟩
      · intro outside
        cases outside
      · intro _ _ _ same
        cases same
        rw [roomy.capacity, Tsobuf.tail, (roomy.scanning outside).1, Nat.zero_add] at full
        have sorted := (std.perm Tsobuf.less (engine.pushRecord i entry
          (engine.beyond entry ring passed)
          (engine.entryFor i tsoTs ring passed)).tso.entries).length_eq
        simp only [flushFullTso, Tsobuf.sort, Tsobuf.size, front, sorted, length]
        omega
  | popped place entries found valid _ => exact roomy.popped place entries found valid
  | returned place past => exact roomy.flushReturn large place past
  | @drained i entry ring passed limit place here _ =>
      have handed := flushRecord_handed (engine.setEntry i { entry with
        pit := engine.beyond entry ring passed }) ring (slotOf (engine.obj ring).ring.capacity passed)
      have outside : engine.pc.flushing = false := by rw [place]; rfl
      have pc := handed.pc.trans place
      refine ⟨?_, handed_events handed roomy.events, ?_, ?_⟩
      · rw [handed.tso]
        exact roomy.capacity
      · rw [handed.tso]
        exact fun _ => roomy.scanning outside
      · rw [pc]
        intro _ _ _ elsewhere
        cases elsewhere
  | drainCommitted place _ | committed place _ _ _ _ | released place =>
      exact roomy.same (by rw [place]; rfl) rfl (List.append_nil _).symm (List.forall_mem_nil _) rfl
  | orphaned place _ _ =>
      exact roomy.same (by rw [place]; rfl) rfl rfl (List.forall_mem_singleton.mpr trivial) rfl
  | reaped place found valid =>
      rw [killOrphan_eq found valid]
      exact roomy.same (by rw [place]; rfl) rfl rfl (List.forall_mem_singleton.mpr trivial) rfl

theorem client {shared : Shared} (roomy : engine.Roomy size)
    (step : Shared.ClientStep engine.shared shared) : Roomy size { engine with shared } := by
  refine ⟨roomy.capacity, ?_, roomy.scanning, roomy.emptying⟩
  obtain ⟨events, trace, byClient⟩ := step.trace
  intro event member
  rw [trace] at member
  rcases List.mem_append.mp member with old | new
  · exact roomy.events event old
  · exact Event.fits_of_byClient (byClient event new)

end Roomy

theorem create_roomy (capacity : UInt32) (timesource : UInt64) (rings : RingId → RingObj)
    (large : 0 < tsoSize capacity) :
    (create capacity false timesource rings).Roomy (tsoSize capacity) :=
  ⟨rfl, List.forall_mem_nil _, fun _ => ⟨rfl, large⟩, fun _ _ _ place => by cases place⟩

/-- From two entries on the buffer has room in every run. -/
theorem after_roomy (std : StdSort) (capacity : UInt32) (timesource : UInt64)
    {rings : RingId → RingObj} (fresh : ∀ ring, (rings ring).Fresh) (large : 2 ≤ tsoSize capacity)
    (actions : List Action) :
    ((create capacity false timesource rings).after std actions).Roomy (tsoSize capacity) :=
  @after_induction std (fun _ => True) (Roomy (tsoSize capacity))
    (create capacity false timesource rings) (create_sound capacity false timesource fresh)
    (fun _ _ _ _ => trivial) (fun _ _ _ _ _ => trivial)
    (fun _ => create_roomy capacity timesource rings (by omega))
    (fun engine op _ _ roomy => roomy.client (engine.shared.apply_step op))
    (fun _ _ _ _ shape _ roomy => roomy.step large shape) actions trivial

/-- Two records in a ring and a poll that reads them. -/
def oneEntryRun : List Action :=
  [.client (.addNamed 0), .client (.markDirty 0),
    .client (.begin 0 (Post.zeroRecord 256)), .client (.finish 0),
    .client (.begin 0 (Post.zeroRecord 256)), .client (.finish 0)] ++
    List.replicate 8 (.engine true)

theorem oneEntryRun_full : .tsoFull 1 ∈ ((create 1 false 0 fun _ =>
    .made 3 false (ascii "ring")).after .insertion oneEntryRun).shared.trace := by
  decide +kernel

/-- Whatever runs, no push finds the buffer full and every emergency flush
leaves room, except for a buffer of one entry: half of one entry is none. -/
theorem tso_never_overflows_iff (capacity : UInt32) :
    (∀ (std : StdSort) (timesource : UInt64) (rings : RingId → RingObj)
      (_ : ∀ ring, (rings ring).Fresh) (actions : List Action) (event : Event),
      event ∈ ((create capacity false timesource rings).after std actions).shared.trace →
      event.Fits (tsoSize capacity)) ↔ capacity ≠ 1 := by
  constructor
  · rintro never rfl
    have impossible := never .insertion 0 (fun _ => .made 3 false (ascii "ring"))
      (fun _ => RingObj.made_fresh ⟨2, rfl⟩ _ _) oneEntryRun (.tsoFull 1) oneEntryRun_full
    exact impossible rfl
  · intro different std timesource rings fresh actions
    have large : 2 ≤ tsoSize capacity := by
      have notOne : capacity.toNat ≠ 1 := fun same => different (UInt32.toNat_inj.mp same)
      rw [tsoSize]
      split
      · decide
      · rename_i nonzero
        have notZero : capacity.toNat ≠ 0 := fun same => nonzero (UInt32.toNat_inj.mp same)
        omega
    exact (after_roomy std capacity timesource fresh large actions).events

/-- With room for one entry the first record fills the buffer and stays. -/
theorem tso_overflows_with_one_entry :
    ¬ ∀ event ∈ ((create 1 false 0 fun _ => .made 3 false (ascii "ring")).after .insertion
      oneEntryRun).shared.trace, event.Fits (tsoSize 1) :=
  fun never => never (.tsoFull 1) oneEntryRun_full rfl

end Engine

end Hogl.Polling
