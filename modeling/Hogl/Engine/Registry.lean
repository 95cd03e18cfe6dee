import Hogl.Engine.Steps

namespace Hogl.Polling

open Hogl.Data Hogl.Ring

/-! # The ring index and the ring map -/

/-- The reference that `kill_orphan` has still to give up. -/
def Pc.releasing : Pc → RingId → Nat
  | .release _ target, ring => if ring = target then 1 else 0
  | _, _ => 0

namespace Engine

variable (engine : Engine)

/-- The ring that index entry `i` refers to, if its iterator is valid. -/
def ringAt (i : Nat) : Option RingId := (engine.index[i]?).bind (·.ring)

variable {engine}

theorem ringAt_eq_some {i : Nat} {ring : RingId} : engine.ringAt i = some ring ↔
    ∃ entry, engine.index[i]? = some entry ∧ entry.ring = some ring :=
  Option.bind_eq_some_iff

theorem ringAt_setEntry {i : Nat} {entry : IndexEntry} {ring : Option RingId}
    (found : engine.index[i]? = some entry) (updated : IndexEntry) (same : updated.ring = ring)
    (j : Nat) : (engine.setEntry i updated).ringAt j = if j = i then ring else engine.ringAt j := by
  have inside := (List.getElem?_eq_some_iff.mp found).1
  simp only [ringAt, setEntry, List.getElem?_set]
  by_cases equal : i = j
  · subst equal
    simp [inside, same]
  · rw [if_neg equal, if_neg (Ne.symm equal)]

theorem ringAt_setEntry_same {i : Nat} {entry : IndexEntry}
    (found : engine.index[i]? = some entry) (updated : IndexEntry)
    (same : updated.ring = entry.ring) : (engine.setEntry i updated).ringAt = engine.ringAt := by
  funext j
  rw [ringAt_setEntry found updated same]
  split
  · rename_i equal
    rw [equal, ringAt, found]
    rfl
  · rfl

/-- What ties the index to the ring map and to the reference counts. -/
structure Registered (engine : Engine) : Prop where
  keyed : engine.shared.Keyed
  mapped : ∀ i ring, engine.ringAt i = some ring → ring ∈ engine.shared.ringMap
  distinct : ∀ i j ring, engine.ringAt i = some ring → engine.ringAt j = some ring → i = j
  refs : ∀ ring, (engine.obj ring).refcnt =
    (engine.obj ring).clients + engine.shared.owned ring + engine.pc.releasing ring
  flagged : ∀ ring ∈ engine.shared.ringMap, (∃ i, engine.ringAt i = some ring) ∨
    engine.shared.dirty = true ∨ ring ∈ engine.shared.unmarked

namespace Registered

theorem client {shared : Shared} (registered : engine.Registered)
    (step : Shared.ClientStep engine.shared shared) :
    Registered { engine with shared } where
  keyed := step.keyed registered.keyed
  mapped i ring found := step.registered_kept (registered.mapped i ring found)
  distinct := registered.distinct
  refs ring := step.refs (registered.refs ring)
  flagged ring member := by
    rcases step.listed member with old | new
    · rcases registered.flagged ring old with indexed | flagged
      · exact .inl indexed
      · exact .inr (step.flagged flagged)
    · exact .inr new

/-- Steps that change neither the index rings nor the map keep the tie. -/
theorem frame {after : Engine} (registered : engine.Registered)
    (ringAt : after.ringAt = engine.ringAt)
    (ringMap : after.shared.ringMap = engine.shared.ringMap)
    (dirty : after.shared.dirty = engine.shared.dirty)
    (unmarked : after.shared.unmarked = engine.shared.unmarked)
    (names : ∀ ring, (after.obj ring).name = (engine.obj ring).name)
    (clients : ∀ ring, (after.obj ring).clients = (engine.obj ring).clients)
    (refs : ∀ ring, (after.obj ring).refcnt + engine.pc.releasing ring =
      (engine.obj ring).refcnt + after.pc.releasing ring) : after.Registered where
  keyed := by
    refine ⟨ringMap ▸ registered.keyed.nodup, ?_⟩
    intro first member second member' equal
    rw [ringMap] at member member'
    apply registered.keyed.names first member second member'
    rwa [← Engine.obj, ← Engine.obj, names first, names second] at equal
  mapped i ring found := by
    rw [ringAt] at found
    exact ringMap ▸ registered.mapped i ring found
  distinct i j ring first second := by
    rw [ringAt] at first second
    exact registered.distinct i j ring first second
  refs ring := by
    have counted := registered.refs ring
    have balance := refs ring
    have owned : after.shared.owned ring = engine.shared.owned ring := by
      rw [Shared.owned, Shared.owned, ringMap]
    rw [clients, owned]
    omega
  flagged ring member := by
    rw [ringMap] at member
    rw [ringAt, dirty, unmarked]
    exact registered.flagged ring member

end Registered

/-! ## Steps that leave the registry alone -/

structure Kept (before after : Engine) : Prop where
  ringAt : after.ringAt = before.ringAt
  ringMap : after.shared.ringMap = before.shared.ringMap
  dirty : after.shared.dirty = before.shared.dirty
  unmarked : after.shared.unmarked = before.shared.unmarked
  objs : ∀ ring, SameObj (before.obj ring) (after.obj ring)
  refcnts : ∀ ring, (after.obj ring).refcnt = (before.obj ring).refcnt

namespace Kept

theorem refl (engine : Engine) : Kept engine engine :=
  ⟨rfl, rfl, rfl, rfl, fun _ => .refl _, fun _ => rfl⟩

theorem trans {first second third : Engine} (left : Kept first second)
    (right : Kept second third) : Kept first third :=
  ⟨right.ringAt.trans left.ringAt, right.ringMap.trans left.ringMap, right.dirty.trans left.dirty,
    right.unmarked.trans left.unmarked, fun ring => (left.objs ring).trans (right.objs ring),
    fun ring => (right.refcnts ring).trans (left.refcnts ring)⟩

theorem same {before after : Engine} (index : after.index = before.index)
    (rings : after.shared.rings = before.shared.rings)
    (ringMap : after.shared.ringMap = before.shared.ringMap)
    (dirty : after.shared.dirty = before.shared.dirty)
    (unmarked : after.shared.unmarked = before.shared.unmarked) : Kept before after := by
  refine ⟨?_, ringMap, dirty, unmarked, fun ring => ?_, fun ring => ?_⟩
  · funext i
    rw [Engine.ringAt, index, Engine.ringAt]
  · rw [show after.obj ring = before.obj ring from congrFun rings ring]
    exact .refl _
  · rw [show after.obj ring = before.obj ring from congrFun rings ring]

theorem fault (engine : Engine) : Kept engine engine.fault := .same rfl rfl rfl rfl rfl

theorem withRing {before : Engine} {i : Nat} {body : IndexEntry → RingId → Engine}
    (kept : Kept before engine) (each : ∀ entry ring, engine.index[i]? = some entry →
      entry.ring = some ring → Kept before (body entry ring)) :
    Kept before (engine.withRing i body) := by
  simp only [Engine.withRing]
  split
  · rename_i entry found
    split
    · rename_i ring valid
      exact each entry ring found valid
    · exact kept.trans (fault engine)
  · exact kept.trans (fault engine)

theorem setEntry {i : Nat} {entry : IndexEntry} (found : engine.index[i]? = some entry)
    {updated : IndexEntry} (same : updated.ring = entry.ring) :
    Kept engine (engine.setEntry i updated) :=
  ⟨ringAt_setEntry_same found updated same, rfl, rfl, rfl, fun _ => .refl _, fun _ => rfl⟩

theorem handed {before after : Engine} {ring : RingId} {slot : UInt32}
    (handed : Handed before after ring slot) (ringAt : after.ringAt = before.ringAt) :
    Kept before after :=
  ⟨ringAt, handed.ringMap, handed.dirty, handed.unmarked, handed.objs, handed.refcnts⟩

theorem flushRecord (engine : Engine) (ring : RingId) (slot : UInt32) :
    Kept engine (engine.flushRecord ring slot) :=
  .handed (flushRecord_handed engine ring slot) (by
    funext i
    rw [Engine.ringAt, flushRecord_index, Engine.ringAt])

theorem flushEntry {te : TsoEntry} {entry : IndexEntry} {ring : RingId}
    (found : engine.index[te.tag]? = some entry) (valid : entry.ring = some ring) :
    Kept engine (engine.flushEntry te) := by
  refine .handed (flushEntry_handed found valid) ?_
  rw [← ringAt_setEntry_same found { entry with
    lastrec := some te.slot
    seqnum := UInt64.ofNat ((engine.obj ring).ring.slots te.slot).seqnum.toNat + 1 } rfl]
  funext i
  rw [Engine.ringAt, flushEntry_index found valid, Engine.ringAt, Engine.setEntry]

theorem processRings (engine : Engine) : Kept engine engine.processRings :=
  .same rfl rfl rfl rfl rfl

theorem flushFullTso (std : StdSort) (i : Nat) (tsoTs : UInt64) :
    Kept engine (engine.flushFullTso std i tsoTs) := by
  have marked : Kept engine engine.markTsoFull := by
    simp only [markTsoFull]
    split
    · split
      · exact .withRing (.refl engine) fun _ _ _ _ => .same rfl rfl rfl rfl rfl
      · exact .fault engine
    · exact .refl engine
  exact marked.trans (.same rfl rfl rfl rfl rfl)

theorem scanRing (std : StdSort) (i : Nat) : Kept engine (engine.scanRing std i) := by
  simp only [Engine.scanRing]
  split
  · split <;> exact .same rfl rfl rfl rfl rfl
  · rename_i entry found
    split
    · exact .same rfl rfl rfl rfl rfl
    · rename_i ring valid
      have reset : Kept engine (engine.setEntry i
          { entry with pit := .reset (engine.obj ring).ring }) := setEntry found rfl
      exact reset.trans (.same rfl rfl rfl rfl rfl)

theorem walkRing (std : StdSort) (i : Nat) (tsoTs : UInt64) :
    Kept engine (engine.walkRing std i tsoTs) := by
  refine .withRing (.refl engine) fun entry ring found valid => ?_
  split
  · exact .same rfl rfl rfl rfl rfl
  · rename_i slot pit _
    have moved : Kept engine (engine.setEntry i { entry with pit }) := setEntry found rfl
    have pushed (te : TsoEntry) : Kept engine (engine.pushRecord i entry pit te) :=
      moved.trans (.same rfl rfl rfl rfl rfl)
    dsimp only
    split
    · exact (pushed _).trans (.flushFullTso std i _)
    · exact pushed _

theorem doFlushTso (left : Nat) (caller : Caller) : Kept engine (engine.doFlushTso left caller) := by
  simp only [Engine.doFlushTso]
  split
  · rename_i left te tso popped
    have start : Kept engine { engine with tso, pc := .doFlush left caller } :=
      .same rfl rfl rfl rfl rfl
    cases found : engine.index[te.tag]? with
    | none =>
        simp only [Engine.flushEntry, Engine.withRing, found]
        exact start.trans (.fault _)
    | some entry =>
        cases valid : entry.ring with
        | none =>
            simp only [Engine.flushEntry, Engine.withRing, found, valid]
            exact start.trans (.fault _)
        | some ring => exact start.trans (.flushEntry found valid)
  · cases caller <;> exact .same rfl rfl rfl rfl rfl

theorem commitPit {i : Nat} {entry : IndexEntry} (found : engine.index[i]? = some entry)
    (ring : RingId) (pit : PopIterator) : Kept engine (engine.commitPit i entry ring pit) := by
  have moved (other : RingId) : (engine.commitPit i entry ring pit).obj other =
      if other = ring then { engine.obj ring with ring := pit.commit (engine.obj ring).ring }
      else engine.obj other := obj_setRing ring other _
  refine ⟨?_, rfl, rfl, rfl, fun other => ?_, fun other => ?_⟩
  · exact ringAt_setEntry_same found { entry with pit, lastrec := none } rfl
  · rw [moved]
    split
    · rename_i equal
      rw [equal]
      exact ⟨rfl, rfl, rfl, rfl, rfl, rfl, rfl, rfl, rfl, rfl⟩
    · exact .refl _
  · rw [moved]
    split
    · rename_i equal
      rw [equal]
    · rfl

theorem drainRing (i : Nat) : Kept engine (engine.drainRing i) := by
  refine .withRing (.refl engine) fun entry ring found valid => ?_
  split
  · exact (commitPit found ring entry.pit).trans (.same rfl rfl rfl rfl rfl)
  · rename_i slot pit _
    have moved : Kept engine (engine.setEntry i { entry with pit }) := setEntry found rfl
    exact moved.trans (.flushRecord _ ring slot)

theorem commitRing (i : Nat) : Kept engine (engine.commitRing i) := by
  simp only [Engine.commitRing]
  split
  · exact .same rfl rfl rfl rfl rfl
  · rename_i entry found
    split
    · exact (commitPit found _ _).trans (.same rfl rfl rfl rfl rfl)
    · exact .same rfl rfl rfl rfl rfl

theorem testOrphan (i : Nat) : Kept engine (engine.testOrphan i) := by
  refine .withRing (.refl engine) fun entry ring found valid => ?_
  split <;> exact .same rfl rfl rfl rfl rfl

theorem testEmpty (i : Nat) : Kept engine (engine.testEmpty i) :=
  .withRing (.refl engine) fun _ _ _ _ => .same rfl rfl rfl rfl rfl

end Kept

theorem releasing_withRing {i : Nat} {body : IndexEntry → RingId → Engine}
    (each : ∀ entry ring, engine.index[i]? = some entry → entry.ring = some ring →
      (body entry ring).pc.releasing = 0) : (engine.withRing i body).pc.releasing = 0 := by
  simp only [withRing]
  split
  · rename_i entry found
    split
    · rename_i ring valid
      exact each entry ring found valid
    · rfl
  · rfl

theorem releasing_scanRing (std : StdSort) (i : Nat) : (engine.scanRing std i).pc.releasing = 0 := by
  simp only [scanRing]
  split
  · split <;> rfl
  · split
    · rfl
    · rw [goto]
      dsimp only
      split <;> rfl

theorem releasing_walkRing (std : StdSort) (i : Nat) (tsoTs : UInt64) :
    (engine.walkRing std i tsoTs).pc.releasing = 0 := by
  refine releasing_withRing fun entry ring found valid => ?_
  split
  · rfl
  · dsimp only
    split <;> rfl

theorem releasing_doFlushTso (left : Nat) (caller : Caller) :
    (engine.doFlushTso left caller).pc.releasing = 0 := by
  simp only [doFlushTso]
  split
  · rename_i left te tso popped
    refine releasing_withRing fun entry ring found valid => ?_
    have handed := @flushEntry_handed { engine with tso, pc := .doFlush left caller } te entry ring
      found valid
    rw [flushEntry, withRing_eq found valid] at handed
    rw [handed.pc]
    rfl
  · cases caller <;> rfl

theorem releasing_drainRing {i : Nat} (draining : engine.pc = .drain i) :
    (engine.drainRing i).pc.releasing = 0 := by
  refine releasing_withRing fun entry ring found valid => ?_
  split
  · rfl
  · rename_i slot pit _
    rw [(flushRecord_handed (engine.setEntry i { entry with pit }) ring slot).pc]
    change engine.pc.releasing = 0
    rw [draining]
    rfl

theorem releasing_commitRing (i : Nat) : (engine.commitRing i).pc.releasing = 0 := by
  simp only [commitRing]
  split
  · rfl
  · split <;> rfl

theorem releasing_testOrphan (i : Nat) : (engine.testOrphan i).pc.releasing = 0 := by
  refine releasing_withRing fun entry ring found valid => ?_
  split <;> rfl

theorem releasing_testEmpty (i : Nat) : (engine.testEmpty i).pc.releasing = 0 := by
  refine releasing_withRing fun entry ring found valid => ?_
  rw [goto]
  dsimp only
  split <;> rfl

theorem Registered.kept {after : Engine} (registered : engine.Registered)
    (kept : Kept engine after) (idle : engine.pc.releasing = 0) (still : after.pc.releasing = 0) :
    after.Registered :=
  registered.frame kept.ringAt kept.ringMap kept.dirty kept.unmarked
    (fun ring => (kept.objs ring).name) (fun ring => (kept.objs ring).clients)
    (fun ring => by rw [idle, still, kept.refcnts ring])

/-! ## Rebuilding and reaping -/

theorem rebuild_perm (std : StdSort) :
    (engine.rebuildRingIndex std).index.Perm (engine.shared.ringMap.map engine.newEntry) :=
  std.perm engine.ringSorter _

theorem mem_rebuild {std : StdSort} {entry : IndexEntry} :
    entry ∈ (engine.rebuildRingIndex std).index ↔
      ∃ ring ∈ engine.shared.ringMap, engine.newEntry ring = entry := by
  rw [(rebuild_perm std).mem_iff, List.mem_map]

theorem rebuild_distinct (std : StdSort) (keyed : engine.shared.Keyed) :
    ((engine.rebuildRingIndex std).index.map (·.ring)).Nodup := by
  rw [((rebuild_perm std).map (·.ring)).nodup_iff, List.map_map]
  exact keyed.nodup.map (Option.some_injective _)

theorem Registered.rebuild (std : StdSort) (registered : engine.Registered)
    (idle : engine.pc.releasing = 0) (i : Nat) :
    ((engine.rebuildRingIndex std).goto (.scan i)).Registered where
  keyed := ⟨registered.keyed.nodup, registered.keyed.names⟩
  mapped j ring found := by
    obtain ⟨entry, read, valid⟩ := ringAt_eq_some.mp found
    obtain ⟨other, member, rfl⟩ := mem_rebuild.mp (List.mem_of_getElem? read)
    obtain rfl : other = ring := Option.some.inj valid
    exact member
  distinct j k ring first second := by
    obtain ⟨entry, read, valid⟩ := ringAt_eq_some.mp first
    obtain ⟨entry', read', valid'⟩ := ringAt_eq_some.mp second
    have nodup := rebuild_distinct std registered.keyed
    have left : (engine.rebuildRingIndex std).index[j]? = some entry := read
    have inside := (List.getElem?_eq_some_iff.mp left).1
    apply (List.getElem?_inj (by simpa using inside) nodup).mp
    have right : (engine.rebuildRingIndex std).index[k]? = some entry' := read'
    rw [List.getElem?_map, List.getElem?_map, left, right, Option.map_some, Option.map_some, valid,
      valid']
  refs ring := by
    have counted := registered.refs ring
    rw [idle] at counted
    exact counted
  flagged ring member := by
    have listed : engine.newEntry ring ∈ (engine.rebuildRingIndex std).index :=
      mem_rebuild.mpr ⟨ring, member, rfl⟩
    obtain ⟨j, read⟩ := List.getElem?_of_mem listed
    exact .inl ⟨j, ringAt_eq_some.mpr ⟨_, read, rfl⟩⟩

theorem killOrphan_eq {i : Nat} {entry : IndexEntry} {ring : RingId}
    (found : engine.index[i]? = some entry) (valid : entry.ring = some ring) :
    engine.killOrphan i true =
      { (engine.setEntry i { entry with ring := none, pit := ⟨0, 0⟩ }).log (.reaped ring) with
        shared.ringMap := engine.shared.ringMap.filter fun other =>
          (engine.obj other).name ≠ (engine.obj ring).name
        shared.dirty := true
        pc := .release i ring } := by
  simp only [killOrphan, if_true]
  exact withRing_eq found valid _

theorem Registered.kill (registered : engine.Registered) (idle : engine.pc.releasing = 0) (i : Nat)
    (trylock : Bool) : (engine.killOrphan i trylock).Registered := by
  cases trylock with
  | false => exact registered.kept (.same rfl rfl rfl rfl rfl) idle rfl
  | true =>
      cases at' : engine.ringAt i with
      | none =>
          have faulted : engine.killOrphan i true = engine.fault := by
            cases found : engine.index[i]? with
            | none => simp only [killOrphan, withRing, found, if_true]
            | some entry =>
                have invalid : entry.ring = none := by simpa [ringAt, found] using at'
                simp only [killOrphan, withRing, found, invalid, if_true]
          rw [faulted]
          exact registered.kept (.fault engine) idle rfl
      | some ring =>
          obtain ⟨entry, found, valid⟩ := ringAt_eq_some.mp at'
          have killed := killOrphan_eq found valid
          have inMap := registered.mapped i ring at'
          have ringAt (j : Nat) : (engine.killOrphan i true).ringAt j =
              if j = i then none else engine.ringAt j := by
            rw [killed]
            exact ringAt_setEntry found { entry with ring := none, pit := ⟨0, 0⟩ } rfl j
          have ringMap (other : RingId) : other ∈ (engine.killOrphan i true).shared.ringMap ↔
              other ∈ engine.shared.ringMap ∧ other ≠ ring := by
            have filtered : (engine.killOrphan i true).shared.ringMap = engine.shared.ringMap.filter
                fun other => (engine.obj other).name ≠ (engine.obj ring).name := by rw [killed]
            rw [filtered, List.mem_filter, decide_eq_true_eq]
            apply and_congr_right
            intro member
            apply not_congr
            exact ⟨registered.keyed.names other member ring inMap, fun same => by rw [same]⟩
          have obj (other : RingId) : (engine.killOrphan i true).obj other = engine.obj other := by
            rw [killed]
            rfl
          refine ⟨⟨?_, ?_⟩, ?_, ?_, ?_, ?_⟩
          · rw [killed]
            exact registered.keyed.nodup.filter _
          · intro first member second member' equal
            rw [← Engine.obj, ← Engine.obj, obj, obj] at equal
            exact registered.keyed.names first ((ringMap first).mp member).1 second
              ((ringMap second).mp member').1 equal
          · intro j other at''
            rw [ringAt] at at''
            split at at''
            · cases at''
            · rename_i different
              refine (ringMap other).mpr ⟨registered.mapped j other at'', ?_⟩
              rintro rfl
              exact different (registered.distinct j i other at'' at')
          · intro j k other first second
            rw [ringAt] at first second
            split at first
            · cases first
            · split at second
              · cases second
              · exact registered.distinct j k other first second
          · intro other
            have counted := registered.refs other
            have releasing : (engine.killOrphan i true).pc.releasing other =
                if other = ring then 1 else 0 := by rw [killed]; rfl
            rw [idle, Pi.zero_apply, Shared.owned] at counted
            rw [obj, releasing, Shared.owned]
            simp only [ringMap]
            by_cases same : other = ring
            · subst same
              rw [if_pos inMap] at counted
              simp only [ne_eq, not_true_eq_false, and_false, if_false, if_true]
              omega
            · simpa only [same, ne_eq, not_false_eq_true, and_true, if_false] using counted
          · intro other member
            exact .inr (.inl (by rw [killed]))

theorem Registered.release {i : Nat} {ring : RingId} (registered : engine.Registered)
    (releasing : engine.pc = .release i ring) : (engine.releaseOrphan i ring).Registered := by
  have obj (other : RingId) : (engine.releaseOrphan i ring).obj other =
      if other = ring then { engine.obj ring with refcnt := (engine.obj ring).refcnt - 1 }
      else engine.obj other := obj_setRing ring other _
  refine registered.frame rfl rfl rfl rfl (fun other => ?_) (fun other => ?_) (fun other => ?_)
  · rw [obj]
    split
    · rename_i equal
      rw [equal]
    · rfl
  · rw [obj]
    split
    · rename_i equal
      rw [equal]
    · rfl
  · have counted := registered.refs other
    have after : (engine.releaseOrphan i ring).pc.releasing other = 0 := rfl
    rw [obj, after, releasing, Pc.releasing]
    rw [releasing, Pc.releasing] at counted
    split
    · rename_i equal
      subst equal
      simp only [if_true] at counted
      dsimp only
      omega
    · rfl

theorem Registered.step (std : StdSort) (trylock : Bool) (registered : engine.Registered) :
    (engine.step std trylock).Registered := by
  cases at' : engine.pc with
  | idle =>
      have idle : engine.pc.releasing = 0 := by rw [at']; rfl
      simp only [Engine.step, at']
      refine registered.kept (.processRings engine) idle ?_
      simp only [processRings]
      split <;> rfl
  | rebuild =>
      have idle : engine.pc.releasing = 0 := by rw [at']; rfl
      simp only [Engine.step, at']
      cases trylock with
      | true => exact registered.rebuild std idle 0
      | false => exact registered.kept (.same rfl rfl rfl rfl rfl) idle rfl
  | scan i =>
      simp only [Engine.step, at']
      exact registered.kept (.scanRing std i) (by rw [at']; rfl) (releasing_scanRing std i)
  | walk i tsoTs =>
      simp only [Engine.step, at']
      exact registered.kept (.walkRing std i tsoTs) (by rw [at']; rfl)
        (releasing_walkRing std i tsoTs)
  | doFlush left caller =>
      simp only [Engine.step, at']
      exact registered.kept (.doFlushTso left caller) (by rw [at']; rfl)
        (releasing_doFlushTso left caller)
  | drain i =>
      simp only [Engine.step, at']
      exact registered.kept (.drainRing i) (by rw [at']; rfl) (releasing_drainRing at')
  | orphan i =>
      simp only [Engine.step, at']
      exact registered.kept (.testOrphan i) (by rw [at']; rfl) (releasing_testOrphan i)
  | empty i =>
      simp only [Engine.step, at']
      exact registered.kept (.testEmpty i) (by rw [at']; rfl) (releasing_testEmpty i)
  | kill i =>
      simp only [Engine.step, at']
      exact registered.kill (by rw [at']; rfl) i trylock
  | release i ring =>
      simp only [Engine.step, at']
      exact registered.release at'
  | commit i =>
      simp only [Engine.step, at']
      exact registered.kept (.commitRing i) (by rw [at']; rfl) (releasing_commitRing i)
  | finish =>
      simp only [Engine.step, at']
      exact registered.kept (.same rfl rfl rfl rfl rfl) (by rw [at']; rfl) rfl
  | halted =>
      simp only [Engine.step, at']
      exact registered

theorem Registered.act (std : StdSort) (registered : engine.Registered) (action : Action) :
    (engine.act std action).Registered := by
  cases action with
  | engine trylock => exact registered.step std trylock
  | client op => exact registered.client (engine.shared.apply_step op)

theorem create_registered (capacity : UInt32) (tsoDisabled : Bool) (timesource : UInt64)
    {rings : RingId → RingObj} (fresh : ∀ ring, (rings ring).Fresh) :
    (create capacity tsoDisabled timesource rings).Registered where
  keyed := ⟨List.nodup_nil, List.forall_mem_nil _⟩
  mapped _ _ found := by cases found
  distinct _ _ _ found := by cases found
  refs ring := (fresh ring).refcnt
  flagged _ member := absurd member List.not_mem_nil

theorem Registered.after (std : StdSort) (registered : engine.Registered) (actions : List Action) :
    (engine.after std actions).Registered :=
  runs_invariant registered (fun _ action holds => holds.act std action) actions

/-- A rebuilt entry expects the sequence number its ring had before. -/
theorem Registered.rebuild_seqnum {std : StdSort} {old new : IndexEntry} {ring : RingId}
    (registered : engine.Registered) (before : old ∈ engine.index) (oldRing : old.ring = some ring)
    (after : new ∈ (engine.rebuildRingIndex std).index) (newRing : new.ring = some ring) :
    new.seqnum = old.seqnum := by
  obtain ⟨other, -, rfl⟩ := mem_rebuild.mp after
  obtain rfl : other = ring := Option.some.inj newRing
  obtain ⟨i, read⟩ := List.getElem?_of_mem before
  have found : engine.lookup other = some old := by
    cases looked : engine.lookup other with
    | none =>
        have skipped := List.find?_eq_none.mp looked old before
        rw [oldRing] at skipped
        exact absurd (beq_self_eq_true _) skipped
    | some first =>
        obtain ⟨j, read'⟩ := List.getElem?_of_mem (List.mem_of_find?_eq_some looked)
        have firstRing : first.ring = some other := by simpa using List.find?_some looked
        obtain rfl : i = j := registered.distinct i j other (ringAt_eq_some.mpr ⟨old, read, oldRing⟩)
          (ringAt_eq_some.mpr ⟨first, read', firstRing⟩)
        rw [← read', read]
  simp only [newEntry, found, Option.map_some, Option.getD_some]

end Engine

end Hogl.Polling
