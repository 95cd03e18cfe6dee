import Hogl.Engine.Delivery

namespace Hogl.Polling

open Hogl.Data Hogl.Ring

/-! # Exactly once, in order -/

/-- A client took a reference to the ring since the engine last saw it orphaned. -/
def reacquired (ring : RingId) (trace : List Event) : Bool :=
  trace.foldl (fun again event => match event with
    | .orphaned other => if other = ring then false else again
    | .acquired other => if other = ring then true else again
    | _ => again) false

theorem reacquired_byClient {ring : RingId} {trace events : List Event}
    (byClient : ∀ event ∈ events, event.byClient)
    (never : reacquired ring (trace ++ events) = false) :
    reacquired ring trace = false ∧ .acquired ring ∉ events := by
  induction events using List.reverseRecOn with
  | nil => exact ⟨by simpa using never, List.not_mem_nil⟩
  | append_singleton events last ih =>
      have client := byClient last (by simp)
      have earlier : reacquired ring (trace ++ events) = false ∧ last ≠ .acquired ring := by
        rw [reacquired, ← List.append_assoc, List.foldl_append, List.foldl_cons, List.foldl_nil,
          ← reacquired] at never
        cases last with
        | acquired other =>
            simp only at never
            split at never
            · cases never
            · rename_i different
              exact ⟨never, fun same => different (Event.acquired.inj same)⟩
        | _ => first | exact ⟨never, by simp⟩ | cases client
      obtain ⟨before, absent⟩ := ih (fun event member => byClient event (by simp [member])) earlier.1
      refine ⟨before, fun member => ?_⟩
      rcases List.mem_append.mp member with old | new
      · exact absent old
      · exact earlier.2 (List.mem_singleton.mp new).symm

/-- Behind the test for an orphan. -/
def Pc.closing : Pc → Bool
  | .empty _ | .kill _ => true
  | _ => false

namespace Engine

variable {engine : Engine} {ring : RingId}

/-- While the engine is about to reap a ring that nobody took again, nothing
is committed to it, and behind the test for emptiness all of it was delivered. -/
structure Forsaken (ring : RingId) (engine : Engine) : Prop where
  unheld : ∀ i, engine.pc = .empty i ∨ engine.pc = .kill i → engine.ringAt i = some ring →
    reacquired ring engine.shared.trace = false → (engine.obj ring).clients = 0
  drained : ∀ i, engine.pc = .kill i → engine.ringAt i = some ring →
    reacquired ring engine.shared.trace = false →
    engine.shared.flushed ring = engine.shared.committed ring

namespace Forsaken

theorem client {shared : Shared} (forsaken : engine.Forsaken ring)
    (step : Shared.ClientStep engine.shared shared) : Forsaken ring { engine with shared } := by
  obtain ⟨events, trace, byClient⟩ := step.trace
  have earlier (never : reacquired ring shared.trace = false) :
      reacquired ring engine.shared.trace = false ∧ .acquired ring ∉ events := by
    rw [trace] at never
    exact reacquired_byClient byClient never
  have alone (held : (engine.shared.rings ring).clients = 0) (absent : .acquired ring ∉ events) :
      shared.committed ring = engine.shared.committed ring ∧ (shared.rings ring).clients = 0 := by
    obtain ⟨same, still | taken⟩ := step.unheld held
    · exact ⟨same, still⟩
    · rw [trace] at taken
      rw [List.append_cancel_left taken] at absent
      exact absurd (List.mem_singleton_self _) absent
  refine ⟨fun i place found never => ?_, fun i place found never => ?_⟩
  · obtain ⟨before, absent⟩ := earlier never
    exact (alone (forsaken.unheld i place found before) absent).2
  · obtain ⟨before, absent⟩ := earlier never
    have held := forsaken.unheld i (.inr place) found before
    change shared.flushed ring = shared.committed ring
    rw [step.flushed, (alone held absent).1]
    exact forsaken.drained i place found before

theorem elsewhere {after : Engine} (outside : after.pc.closing = false) : after.Forsaken ring := by
  refine ⟨fun i place _ _ => ?_, fun i place _ _ => ?_⟩
  · rcases place with place | place <;>
    · rw [place] at outside
      cases outside
  · rw [place] at outside
    cases outside

theorem step {std : StdSort} {next : Engine} (forsaken : engine.Forsaken ring)
    (sound : engine.Sound) (delivering : engine.Delivering ring)
    (shape : engine.EngineStep std next) : next.Forsaken ring := by
  cases shape with
  | @orphaned i owner place found alone =>
      refine ⟨fun j reached at' _ => ?_, fun j reached => by cases reached⟩
      obtain rfl : i = j := by
        rcases reached with reached | reached <;> cases reached
        rfl
      obtain rfl : owner = ring := Option.some.inj (found.symm.trans at')
      have counted := sound.registered.refs owner
      rw [alone, Shared.owned, if_pos (sound.registered.mapped i owner found)] at counted
      change (engine.obj owner).clients = 0
      omega
  | @emptied i owner place found empty =>
      have same {j : Nat} (reached : Pc.kill i = .empty j ∨ Pc.kill i = .kill j) : i = j := by
        rcases reached with reached | reached <;> cases reached
        rfl
      refine ⟨fun j reached at' never => ?_, fun j reached at' never => ?_⟩
      · obtain rfl := same reached
        exact forsaken.unheld i (.inl place) at' never
      · obtain rfl := same (.inr reached)
        obtain rfl : owner = ring := Option.some.inj (found.symm.trans at')
        have all := (sound.tracked.spanned owner).empty_iff.mp empty
        have above := delivering.above
        apply delivering.delivered.eq_of_length
        exact Nat.le_antisymm delivering.handed_le (all ▸ above)
  | polled =>
      apply elsewhere
      simp only [processRings]
      split <;> rfl
  | reset =>
      apply elsewhere
      simp only [goto]
      split <;> rfl
  | @returned _ caller _ _ => cases caller <;> exact elsewhere rfl
  | @popped left caller te rest entry owner place _ found valid _ =>
      have handed : Handed (engine.popTo left caller rest)
        ((engine.popTo left caller rest).flushEntry te) owner te.slot :=
          flushEntry_handed found valid
      have pc : _ = Pc.doFlush left caller := handed.pc
      exact elsewhere (by rw [pc]; rfl)
  | @drained i entry owner passed limit place _ _ =>
      have pc := (flushRecord_handed (engine.setEntry i { entry with
        pit := engine.beyond entry owner passed }) owner
          (slotOf (engine.obj owner).ring.capacity passed)).pc.trans place
      exact elsewhere (by rw [pc]; rfl)
  | reaped place found valid =>
      rw [killOrphan_eq found valid]
      exact elsewhere rfl
  | unlocked | rebuilt | skipped | exhausted | flushing | walked | pushed | filled | drainCommitted
  | passedOver | released | committed | untouched | settled | finished =>
      exact elsewhere rfl

end Forsaken

/-- A ring leaves the index only when `kill_orphan` reaps it. -/
theorem EngineStep.indexed {std : StdSort} {next : Engine} {i : Nat}
    (shape : engine.EngineStep std next) (sound : engine.Sound)
    (found : engine.ringAt i = some ring) :
    (∃ j, next.ringAt j = some ring) ∨
      engine.pc = .kill i ∧ .reaped ring ∈ next.shared.trace := by
  have still (same : next.ringAt = engine.ringAt) : ∃ j, next.ringAt j = some ring :=
    ⟨i, (congrFun same i).trans found⟩
  cases shape with
  | polled | unlocked | skipped | exhausted | flushing | walked | passedOver | orphaned | emptied
  | released | untouched | settled | finished => exact .inl (still rfl)
  | rebuilt =>
      have listed : engine.newEntry ring ∈ (engine.rebuildRingIndex std).index :=
        mem_rebuild.mpr ⟨ring, sound.registered.mapped i ring found, rfl⟩
      obtain ⟨j, read⟩ := List.getElem?_of_mem listed
      exact .inl ⟨j, ringAt_eq_some.mpr ⟨_, read, rfl⟩⟩
  | reset _ read _ => exact .inl (still (ringAt_setEntry_same read _ rfl))
  | pushed _ here _ _ => exact .inl (still (ringAt_setEntry_same here.found _ rfl))
  | @filled k tsoTs entry owner passed limit _ here _ _ =>
      have full : Kept (engine.pushRecord k entry (engine.beyond entry owner passed)
        (engine.entryFor k tsoTs owner passed)) _ :=
          .flushFullTso std k (engine.entryFor k tsoTs owner passed).timestamp
      exact .inl (still (full.ringAt.trans (ringAt_setEntry_same here.found _ rfl)))
  | @popped left caller te rest entry owner _ _ read valid _ =>
      have flushed : Kept (engine.popTo left caller rest) _ := .flushEntry read valid
      exact .inl (still flushed.ringAt)
  | @returned _ caller => cases caller <;> exact .inl (still rfl)
  | @drained k entry owner passed limit _ here _ =>
      have flushed : Kept (engine.setEntry k { entry with
        pit := engine.beyond entry owner passed }) _ :=
          .flushRecord _ owner (slotOf (engine.obj owner).ring.capacity passed)
      exact .inl (still (flushed.ringAt.trans (ringAt_setEntry_same here.found _ rfl)))
  | @drainCommitted k entry owner _ _ here =>
      exact .inl (still (Kept.commitPit here.found owner entry.pit).ringAt)
  | @committed k entry owner slot _ read _ _ _ =>
      exact .inl (still (Kept.commitPit read owner _).ringAt)
  | @reaped k entry owner place read valid =>
      by_cases same : i = k
      · subst same
        obtain rfl : owner = ring :=
          Option.some.inj ((ringAt_eq_some.mpr ⟨entry, read, valid⟩).symm.trans found)
        refine .inr ⟨place, ?_⟩
        rw [killOrphan_eq read valid]
        exact List.mem_append_right _ List.mem_cons_self
      · refine .inl ⟨i, ?_⟩
        rw [killOrphan_eq read valid]
        exact (ringAt_setEntry read { entry with ring := none, pit := ⟨0, 0⟩ } rfl i).trans
          (by rw [if_neg same, found])

end Engine

/-- Bounded timestamps leave room for every adjustment within a ring. -/
theorem climbs_of_bounded {mask : UInt32} {part : List Record} {tsoTs : UInt64}
    (bounded : ∀ record ∈ part, record.timestamp.toNat + slotCount mask ≤ 2 ^ 64)
    (short : part.length ≤ mask.toNat) (room : tsoTs.toNat + part.length < 2 ^ 64) :
    Climbs tsoTs part := by
  induction part generalizing tsoTs with
  | nil => trivial
  | cons record rest ih =>
      obtain ⟨here, later⟩ := List.forall_mem_cons.mp bounded
      rw [List.length_cons] at short room
      rw [slotCount] at here
      rw [Climbs]
      by_cases behind : record.timestamp ≤ tsoTs
      · have next : (tsoTs + 1).toNat = tsoTs.toNat + 1 := by
          rw [UInt64.toNat_add]
          exact Nat.mod_eq_of_lt (by simpa using (by omega : tsoTs.toNat + 1 < 2 ^ 64))
        rw [Engine.adjust, if_pos behind]
        refine ⟨UInt64.lt_iff_toNat_lt.mpr (by omega), ih later (by omega) (by omega)⟩
      · rw [Engine.adjust, if_neg behind]
        refine ⟨UInt64.not_le.mp behind, ih later (by omega) (by omega)⟩

theorem climbing_of_bounded {mask : UInt32} {records : List Record}
    (bounded : ∀ record ∈ records, record.timestamp.toNat + slotCount mask ≤ 2 ^ 64) :
    Climbing mask records := by
  intro part inside short
  have small := mask.toNat_lt
  refine climbs_of_bounded (fun record member => bounded record (inside.subset member)) short ?_
  change 0 + part.length < 2 ^ 64
  omega

namespace Engine

variable {engine : Engine} {ring : RingId}

theorem create_delivering (capacity : UInt32) (tsoDisabled : Bool) (timesource : UInt64)
    {rings : RingId → RingObj} (fresh : ∀ ring, (rings ring).Fresh) (ring : RingId) :
    (create capacity tsoDisabled timesource rings).Delivering ring where
  delivered := List.nil_prefix
  stores := fun _ _ _ read => by cases read
  above := Nat.le_of_eq (Shared.popped_eq (RingObj.Fresh.spans (fresh ring)))
  unindexed _ := Shared.popped_eq (RingObj.Fresh.spans (fresh ring))
  rested _ _ read := by cases read
  advanced _ _ _ read := by cases read
  queued _ found := by cases found
  walking _ _ walks := walks.elim

/-- The clock of the ring never wraps. -/
def Clear (ring : RingId) (engine : Engine) : Prop :=
  Climbing (engine.obj ring).ring.capacity (engine.shared.committed ring)

theorem Clear.of_client {shared : Shared} (step : Shared.ClientStep engine.shared shared)
    (clear : Clear ring { engine with shared }) : Clear ring engine := by
  have capacity : (shared.rings ring).ring.capacity = (engine.obj ring).ring.capacity :=
    (step.same ring).capacity
  rw [Clear, ← capacity]
  exact Climbing.of_prefix clear (step.committed_prefix ring)

theorem Clear.of_step {std : StdSort} {next : Engine} (shape : engine.EngineStep std next)
    (clear : Clear ring next) : Clear ring engine := by
  rw [Clear, ← (shape.objs ring).capacity, ← shape.committed_eq ring]
  exact clear

/-- The delivery invariant of every run in which the clock never wraps. -/
theorem after_delivering (std : StdSort) (capacity : UInt32) (tsoDisabled : Bool)
    (timesource : UInt64) {rings : RingId → RingObj} (fresh : ∀ ring, (rings ring).Fresh)
    (actions : List Action)
    (clear : Clear ring ((create capacity tsoDisabled timesource rings).after std actions)) :
    ((create capacity tsoDisabled timesource rings).after std actions).Delivering ring ∧
    ((create capacity tsoDisabled timesource rings).after std actions).Forsaken ring := by
  refine @after_induction std (Clear ring)
    (fun engine => engine.Delivering ring ∧ engine.Forsaken ring) _
    (create_sound capacity tsoDisabled timesource fresh) ?_ ?_ ?_ ?_ ?_ actions clear
  · exact fun engine op _ good => .of_client (engine.shared.apply_step op) good
  · exact fun engine next _ shape good => .of_step shape good
  · exact fun _ => ⟨create_delivering capacity tsoDisabled timesource fresh ring, .elsewhere rfl⟩
  · intro engine op sound _ ⟨delivering, forsaken⟩
    have step := engine.shared.apply_step op
    exact ⟨delivering.view (.client sound step), forsaken.client step⟩
  · intro engine next sound _ shape good ⟨delivering, forsaken⟩
    exact ⟨delivering.step sound (Clear.of_step shape good) shape,
      forsaken.step sound delivering shape⟩

/-- In every interleaving of the engine with its clients, what was handed to
`flush_record` of a ring is a prefix of what was committed to it, and a ring
that nobody took again is dropped from the index with nothing left in it.  The
buffer of the model is the one of the code as long as it does not overflow. -/
theorem delivered_exactly_once (std : StdSort) (capacity : UInt32) (tsoDisabled : Bool)
    (_ : tsoDisabled = true ∨ 2 ≤ tsoSize capacity) (timesource : UInt64)
    (rings : RingId → RingObj) (fresh : ∀ ring, (rings ring).Fresh) (actions : List Action)
    (ring : RingId)
    (bounded : ∀ record ∈ ((create capacity tsoDisabled timesource rings).after std
      actions).shared.committed ring,
      record.timestamp.toNat + slotCount (((create capacity tsoDisabled timesource rings).after std
        actions).obj ring).ring.capacity ≤ 2 ^ 64) :
    let engine := (create capacity tsoDisabled timesource rings).after std actions
    engine.shared.flushed ring <+: engine.shared.committed ring ∧
    ∀ (action : Action) (i : Nat), engine.ringAt i = some ring →
      (∀ j, (engine.act std action).ringAt j ≠ some ring) →
      reacquired ring engine.shared.trace = false →
      engine.shared.flushed ring = engine.shared.committed ring := by
  intro engine
  have sound : engine.Sound := (create_sound capacity tsoDisabled timesource fresh).after std actions
  obtain ⟨delivering, forsaken⟩ := after_delivering std capacity tsoDisabled timesource fresh actions
    (climbing_of_bounded bounded)
  refine ⟨delivering.delivered, fun action i found gone never => ?_⟩
  cases action with
  | client op => exact absurd found (gone i)
  | engine trylock =>
      rcases (sound.tracked.shape std trylock).indexed sound found with ⟨j, kept⟩ | ⟨place, -⟩
      · exact absurd kept (gone j)
      · exact forsaken.drained i place found never

/-- Two records go out in the order they were committed in. -/
def twoRecordRun : List Action :=
  [.client (.addNamed 0), .client (.markDirty 0),
    .client (.begin 0 { Post.zeroRecord 256 with timestamp := 9 }), .client (.finish 0),
    .client (.begin 0 { Post.zeroRecord 256 with timestamp := 5 }), .client (.finish 0)] ++
    List.replicate 14 (.engine true)

theorem delivered_exactly_once_two_records :
    let engine := (create 2 false 0 fun _ => .made 3 false (ascii "ring")).after .insertion
      twoRecordRun
    (engine.shared.flushed 0).map (·.timestamp) = [9, 5] ∧
      engine.shared.flushed 0 <+: engine.shared.committed 0 := by
  intro engine
  refine ⟨by decide +kernel, ?_⟩
  refine (delivered_exactly_once .insertion 2 false (by decide) 0
    (fun _ => .made 3 false (ascii "ring")) (fun _ => RingObj.made_fresh ⟨2, rfl⟩ _ _)
    twoRecordRun 0 ?_).1
  decide +kernel

end Engine

end Hogl.Polling
