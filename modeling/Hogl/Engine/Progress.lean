import Hogl.Engine.Capacity

namespace Hogl.Ring

variable {iterator : PopIterator} {mask : UInt32} {passed limit : Nat}

/-- How many records `next` has still to yield. -/
def PopIterator.unread (iterator : PopIterator) (mask : UInt32) : Nat :=
  ((iterator.tail - (iterator.head + 1)) &&& mask).toNat

theorem PopIterator.Stands.unread_eq (stands : iterator.Stands mask passed limit)
    (isMask : Hogl.Data.IsMask mask) : iterator.unread mask = limit - passed := by
  have head : (iterator.head + 1).toNat ≡ passed [MOD Hogl.Data.slotCount mask] := by
    have last := slotOf_modEq isMask (passed + mask.toNat)
    have turn : passed + mask.toNat + 1 ≡ passed [MOD Hogl.Data.slotCount mask] :=
      Nat.add_mod_right passed (Hogl.Data.slotCount mask)
    rw [← stands.head] at last
    exact (isMask.add_modEq last (Nat.ModEq.refl 1)).trans turn
  exact isMask.sub_and_toNat (stands.tail ▸ slotOf_modEq isMask limit) head stands.ordered
    (Nat.lt_succ_of_le stands.near)

end Hogl.Ring

namespace Hogl.Polling

open Hogl.Data Hogl.Ring

/-! # A poll ends

Every loop of `process_rings` is bounded by what the engine thread alone
holds: the index, the TSO buffer, and the iterators, which stop at the tail
they read when they were reset.  A number computed from these falls with each
step of the engine and is not touched by any step of a client.
-/

/-- A step of the engine thread. -/
def Action.works : Action → Bool
  | .engine _ => true
  | .client _ => false

namespace Engine

variable {engine next : Engine} {std : StdSort}

/-- The most steps that one index entry takes. -/
def ringSteps (engine : Engine) : Option RingId → Nat
  | none => 1
  | some ring => 6 + 3 * slotCount (engine.obj ring).ring.capacity

/-- The most steps that the entries from `i` on take. -/
def stepsFrom (engine : Engine) (i : Nat) : Nat :=
  (((engine.index.map (·.ring)).drop i).map engine.ringSteps).sum

/-- From the head of the loop over the index on. -/
def scanSteps (engine : Engine) (i : Nat) : Nat :=
  4 + engine.index.length + engine.tso.size + engine.stepsFrom i

/-- What the iterator of entry `i` has still to yield. -/
def unreadAt (engine : Engine) (i : Nat) : Nat :=
  match engine.index[i]? with
  | some ⟨some ring, pit, _, _⟩ => pit.unread (engine.obj ring).ring.capacity
  | _ => 0

/-- The most steps from a place within a poll to its end. -/
def stepsAt (engine : Engine) : Pc → Nat
  | .idle | .rebuild | .halted => 0
  | .scan i => engine.scanSteps i
  | .walk i _ | .drain i => 5 + 3 * engine.unreadAt i + engine.scanSteps (i + 1)
  | .doFlush _ (.full i _) => 6 + 3 * engine.unreadAt i + engine.scanSteps (i + 1)
  | .doFlush _ .final => 3 + engine.index.length + engine.tso.size
  | .orphan i => 4 + engine.scanSteps (i + 1)
  | .empty i => 3 + engine.scanSteps (i + 1)
  | .kill i => 2 + engine.scanSteps (i + 1)
  | .release i _ => 1 + engine.scanSteps (i + 1)
  | .commit i => 2 + (engine.index.length - i)
  | .finish => 1

def remaining (engine : Engine) : Nat := engine.stepsAt engine.pc

/-- In a poll, behind the rebuild of the index. -/
def InPoll (engine : Engine) : Prop := engine.pc ≠ .idle ∧ engine.pc ≠ .rebuild

theorem remaining_eq {pc : Pc} (place : engine.pc = pc) : engine.remaining = engine.stepsAt pc := by
  rw [remaining, place]

theorem remaining_pos (sound : engine.Sound) (inPoll : engine.InPoll) : 0 < engine.remaining := by
  cases place : engine.pc with
  | idle => exact absurd place inPoll.1
  | rebuild => exact absurd place inPoll.2
  | halted => exact absurd place sound.tracked.running
  | doFlush left caller =>
      cases caller <;> rw [remaining_eq place, stepsAt] <;> omega
  | scan | walk | drain | orphan | empty | kill | release | commit | finish =>
      rw [remaining_eq place, stepsAt]
      first | omega | (rw [scanSteps]; omega)

/-! ## What enters the bound -/

/-- The same rings at the same places of the index, with the same capacities. -/
structure SameIndex (before after : Engine) : Prop where
  rings : after.index.map (·.ring) = before.index.map (·.ring)
  capacity : ∀ ring, (after.obj ring).ring.capacity = (before.obj ring).ring.capacity

namespace SameIndex

theorem symm (same : SameIndex engine next) : SameIndex next engine :=
  ⟨same.rings.symm, fun ring => (same.capacity ring).symm⟩

theorem of_index (index : next.index = engine.index) (rings : next.shared.rings = engine.shared.rings) :
    SameIndex engine next :=
  ⟨by rw [index], fun ring => by rw [obj, rings, obj]⟩

theorem length (same : SameIndex engine next) : next.index.length = engine.index.length := by
  have lengths := congrArg List.length same.rings
  rwa [List.length_map, List.length_map] at lengths

theorem ringSteps (same : SameIndex engine next) : next.ringSteps = engine.ringSteps := by
  funext ring
  cases ring with
  | none => rfl
  | some ring => rw [Engine.ringSteps, same.capacity, Engine.ringSteps]

theorem stepsFrom (same : SameIndex engine next) (i : Nat) : next.stepsFrom i = engine.stepsFrom i := by
  rw [Engine.stepsFrom, same.rings, same.ringSteps, Engine.stepsFrom]

theorem set {i : Nat} {entry updated : IndexEntry} (found : engine.index[i]? = some entry)
    (ring : updated.ring = entry.ring) (index : next.index = engine.index.set i updated)
    (objs : ∀ ring, (next.obj ring).ring.capacity = (engine.obj ring).ring.capacity) :
    SameIndex engine next := by
  have mapped : (engine.index.map (·.ring))[i]? = some entry.ring := by
    rw [List.getElem?_map, found, Option.map_some]
  obtain ⟨inside, read⟩ := List.getElem?_eq_some_iff.mp mapped
  refine ⟨?_, objs⟩
  rw [index, List.map_set, ring, ← read, List.set_getElem_self]

end SameIndex

theorem stepsFrom_succ {i : Nat} {entry : IndexEntry} (found : engine.index[i]? = some entry) :
    engine.stepsFrom i = engine.ringSteps entry.ring + engine.stepsFrom (i + 1) := by
  obtain ⟨inside, rfl⟩ := List.getElem?_eq_some_iff.mp found
  rw [stepsFrom, List.drop_eq_getElem_cons (by rwa [List.length_map]), List.map_cons, List.sum_cons,
    List.getElem_map, stepsFrom]

theorem unreadAt_eq {i : Nat} {entry : IndexEntry} {ring : RingId}
    (found : engine.index[i]? = some entry) (valid : entry.ring = some ring) :
    engine.unreadAt i = entry.pit.unread (engine.obj ring).ring.capacity := by
  obtain ⟨_, pit, lastrec, seqnum⟩ := entry
  subst valid
  rw [unreadAt, found]

theorem AtRecord.unread {i passed limit : Nat} {entry : IndexEntry} {ring : RingId}
    (here : engine.AtRecord i entry ring passed limit) (sound : engine.Sound) :
    engine.unreadAt i = limit - passed := by
  rw [unreadAt_eq here.found here.valid]
  exact here.stands.unread_eq (sound.tracked.spanned ring).isMask

theorem SameIndex.scanSteps (same : SameIndex engine next) (size : Nat)
    (entries : next.tso.size + size = engine.tso.size) (i : Nat) :
    next.scanSteps i + size = engine.scanSteps i := by
  rw [Engine.scanSteps, same.length, same.stepsFrom, Engine.scanSteps, ← entries]
  omega

theorem goto_lt {pc pc' : Pc} (place : engine.pc = pc) (less : engine.stepsAt pc' < engine.stepsAt pc) :
    (engine.goto pc').remaining < engine.remaining := by
  rw [remaining_eq place]
  exact less

theorem scanSteps_past {i : Nat} (past : engine.index[i]? = none) :
    engine.scanSteps i = 4 + engine.index.length + engine.tso.size := by
  have outside : (engine.index.map (·.ring)).length ≤ i := by
    rw [List.length_map]
    exact List.getElem?_eq_none_iff.mp past
  rw [scanSteps, stepsFrom, List.drop_eq_nil_of_le outside]
  rfl

theorem scanSteps_succ {i : Nat} {entry : IndexEntry} (found : engine.index[i]? = some entry) :
    engine.scanSteps i = engine.ringSteps entry.ring + engine.scanSteps (i + 1) := by
  rw [scanSteps, stepsFrom_succ found, scanSteps]
  omega

/-- What is behind an entry does not depend on it. -/
theorem scanSteps_set {i : Nat} {updated : IndexEntry} (index : next.index = engine.index.set i updated)
    (capacity : ∀ ring, (next.obj ring).ring.capacity = (engine.obj ring).ring.capacity)
    (tso : next.tso = engine.tso) : next.scanSteps (i + 1) = engine.scanSteps (i + 1) := by
  have steps : next.ringSteps = engine.ringSteps := by
    funext ring
    cases ring with
    | none => rfl
    | some ring => rw [ringSteps, capacity, ringSteps]
  rw [scanSteps, stepsFrom, index, tso, steps, List.length_set, List.map_set,
    List.drop_set_of_lt (Nat.lt_succ_self i), scanSteps, stepsFrom]

/-- The iterator yields no more than the ring holds. -/
theorem reset_unread (sound : engine.Sound) (ring : RingId) :
    (PopIterator.reset (engine.obj ring).ring).unread (engine.obj ring).ring.capacity <
      slotCount (engine.obj ring).ring.capacity := by
  have spans := sound.tracked.spanned ring
  have stands := PopIterator.Stands.reset spans
  have unread := stands.unread_eq spans.isMask
  exact Nat.lt_succ_of_le (unread.trans_le stands.near)

/-- Rewriting what an entry knows about the last record moves no iterator. -/
theorem unreadAt_kept {i j : Nat} {entry updated : IndexEntry}
    (found : engine.index[j]? = some entry) (ring : updated.ring = entry.ring)
    (pit : updated.pit = entry.pit) (index : next.index = engine.index.set j updated)
    (capacity : ∀ ring, (next.obj ring).ring.capacity = (engine.obj ring).ring.capacity) :
    next.unreadAt i = engine.unreadAt i := by
  have inside := (List.getElem?_eq_some_iff.mp found).1
  by_cases here : j = i
  · subst here
    have read : next.index[j]? = some updated := by
      rw [index, List.getElem?_set_self inside]
    cases valid : entry.ring with
    | none =>
        obtain ⟨_, _, _, _⟩ := entry
        obtain ⟨_, _, _, _⟩ := updated
        dsimp only at valid ring
        subst valid ring
        rw [unreadAt, read, unreadAt, found]
    | some owner =>
        rw [unreadAt_eq read (ring.trans valid), unreadAt_eq found valid, pit, capacity]
  · have read : next.index[i]? = engine.index[i]? := by
      rw [index, List.getElem?_set_ne here]
    simp only [unreadAt, read, capacity]

/-- One call of `next` yields one record. -/
theorem AtRecord.unread_beyond {i passed limit : Nat} {entry : IndexEntry} {ring : RingId}
    (here : engine.AtRecord i entry ring passed limit) (sound : engine.Sound) (more : passed < limit)
    (index : next.index = engine.index.set i { entry with pit := engine.beyond entry ring passed })
    (capacity : (next.obj ring).ring.capacity = (engine.obj ring).ring.capacity) :
    next.unreadAt i + 1 = engine.unreadAt i := by
  have isMask := (sound.tracked.spanned ring).isMask
  have inside := (List.getElem?_eq_some_iff.mp here.found).1
  have read : next.index[i]? = some { entry with pit := engine.beyond entry ring passed } := by
    rw [index, List.getElem?_set_self inside]
  have unread := (here.stands.advance isMask more).unread_eq isMask
  rw [here.unread sound, unreadAt_eq read here.valid, capacity]
  refine (congrArg (· + 1) unread).trans ?_
  omega

theorem AtRecord.push_steps {i passed limit : Nat} {entry : IndexEntry} {ring : RingId}
    (here : engine.AtRecord i entry ring passed limit) (sound : engine.Sound) (more : passed < limit)
    (te : TsoEntry) :
    (engine.pushRecord i entry (engine.beyond entry ring passed) te).unreadAt i + 1 =
        engine.unreadAt i ∧
      (engine.pushRecord i entry (engine.beyond entry ring passed) te).scanSteps (i + 1) =
        engine.scanSteps (i + 1) + 1 := by
  have same : SameIndex engine (engine.pushRecord i entry (engine.beyond entry ring passed) te) :=
    @SameIndex.set engine _ i entry { entry with pit := engine.beyond entry ring passed } here.found
      rfl rfl fun _ => rfl
  have size : engine.tso.size + 1 =
      (engine.pushRecord i entry (engine.beyond entry ring passed) te).tso.size :=
    (@List.length_append _ engine.tso.entries [te]).symm
  exact ⟨here.unread_beyond sound more rfl rfl, (same.symm.scanSteps 1 size (i + 1)).symm⟩

theorem flushFullTso_steps (std : StdSort) (engine : Engine) (i : Nat) (tsoTs : UInt64) :
    (engine.flushFullTso std i tsoTs).remaining =
      6 + 3 * engine.unreadAt i + engine.scanSteps (i + 1) := by
  have same : SameIndex engine (engine.flushFullTso std i tsoTs) :=
    .of_index (markTsoFull_index engine) (markTsoFull_rings engine)
  have size : (engine.flushFullTso std i tsoTs).tso.size + 0 = engine.tso.size :=
    (std.perm Tsobuf.less engine.tso.entries).length_eq
  have unread : (engine.flushFullTso std i tsoTs).unreadAt i = engine.unreadAt i := by
    simp only [unreadAt, flushFullTso, markTsoFull_index, obj, markTsoFull_rings]
  have steps := same.scanSteps 0 size (i + 1)
  rw [Nat.add_zero] at steps
  rw [← unread, ← steps]
  rfl

/-- The iterator is reset: what the entry was allowed covers what it yields. -/
theorem reset_lt {i : Nat} {entry : IndexEntry} {ring : RingId} {pc : Pc} (sound : engine.Sound)
    (place : engine.pc = .scan i) (found : engine.index[i]? = some entry)
    (valid : entry.ring = some ring) (goes : pc = .drain i ∨ pc = .walk i 0) :
    (((engine.setEntry i { entry with pit := .reset (engine.obj ring).ring }).log
      (.snapshot ring)).goto pc).remaining < engine.remaining := by
  obtain ⟨after, same, read, steps, size⟩ : ∃ after : Engine, SameIndex engine after ∧
      after.index[i]? = some { entry with pit := .reset (engine.obj ring).ring } ∧
      (((engine.setEntry i { entry with pit := .reset (engine.obj ring).ring }).log
        (.snapshot ring)).goto pc).remaining = 5 + 3 * after.unreadAt i + after.scanSteps (i + 1) ∧
      after.tso = engine.tso := by
    refine ⟨(engine.setEntry i { entry with pit := .reset (engine.obj ring).ring }).log
      (.snapshot ring), ?_, ?_, ?_, rfl⟩
    · exact @SameIndex.set engine _ i entry { entry with pit := .reset (engine.obj ring).ring } found
        rfl rfl fun _ => rfl
    · exact List.getElem?_set_self (List.getElem?_eq_some_iff.mp found).1
    · rcases goes with rfl | rfl <;> rfl
  have unread := unreadAt_eq read valid
  have less := reset_unread sound ring
  have kept := same.scanSteps 0 (by rw [size, Nat.add_zero]) (i + 1)
  rw [same.capacity] at unread
  rw [steps, remaining_eq place, stepsAt, scanSteps_succ found, valid, ringSteps, unread]
  dsimp only
  omega

namespace EngineStep

/-- A step of the engine leaves it less to do in the poll. -/
theorem remaining_lt (shape : engine.EngineStep std next) (sound : engine.Sound)
    (inPoll : engine.InPoll) : next.remaining < engine.remaining := by
  cases shape with
  | polled place => exact absurd place inPoll.1
  | unlocked place | rebuilt place => exact absurd place inPoll.2
  | @skipped i entry place found invalid =>
      apply goto_lt place
      rw [stepsAt, stepsAt, scanSteps_succ found, invalid, ringSteps]
      omega
  | @exhausted i place past disabled =>
      apply goto_lt place
      rw [stepsAt, stepsAt, scanSteps_past past]
      omega
  | @flushing i place past enabled =>
      rw [remaining_eq place, stepsAt, scanSteps_past past]
      have size : (engine.flushTso std).tso.size = engine.tso.size :=
        (flushTso_entries std).length_eq
      have steps : (engine.flushTso std).remaining =
        3 + engine.index.length + (engine.flushTso std).tso.size := rfl
      omega
  | @reset i entry ring place found valid =>
      refine reset_lt sound place found valid ?_
      split
      · exact .inl rfl
      · exact .inr rfl
  | @walked i tsoTs entry ring passed place here =>
      apply goto_lt place
      rw [stepsAt, stepsAt]
      omega
  | @pushed i tsoTs entry ring passed limit place here more room =>
      obtain ⟨unread, steps⟩ := here.push_steps sound more (engine.entryFor i tsoTs ring passed)
      have after : (engine.pushRecord i entry (engine.beyond entry ring passed)
        (engine.entryFor i tsoTs ring passed)).remaining = 5 + 3 * _ + _ := rfl
      rw [remaining_eq place, stepsAt, after, steps]
      omega
  | @filled i tsoTs entry ring passed limit place here more full =>
      obtain ⟨unread, steps⟩ := here.push_steps sound more (engine.entryFor i tsoTs ring passed)
      have after := flushFullTso_steps std
        (engine.pushRecord i entry (engine.beyond entry ring passed)
          (engine.entryFor i tsoTs ring passed)) i (engine.entryFor i tsoTs ring passed).timestamp
      rw [remaining_eq place, stepsAt, after, steps]
      omega
  | @popped left caller te rest entry ring place entries found valid within =>
      have handed : Handed (engine.popTo left caller rest)
        ((engine.popTo left caller rest).flushEntry te) ring te.slot := flushEntry_handed found valid
      obtain ⟨updated, owner, pit, index⟩ : ∃ updated : IndexEntry, updated.ring = entry.ring ∧
          updated.pit = entry.pit ∧ ((engine.popTo left caller rest).flushEntry te).index =
            engine.index.set te.tag updated := by
        have index := @flushEntry_index (engine.popTo left caller rest) te entry ring found valid
        refine ⟨_, ?_, ?_, index⟩ <;> rfl
      have capacity (other : RingId) := (handed.objs other).capacity
      have same : SameIndex engine ((engine.popTo left caller rest).flushEntry te) :=
        .set found owner index capacity
      have size : ((engine.popTo left caller rest).flushEntry te).tso.size + 1 = engine.tso.size := by
        rw [handed.tso, Tsobuf.size, Tsobuf.size, entries, List.length_cons]
        rfl
      rw [remaining_eq handed.pc, remaining_eq place]
      cases caller with
      | full i tsoTs =>
          have steps := same.scanSteps 1 size (i + 1)
          have unread : ((engine.popTo left (.full i tsoTs) rest).flushEntry te).unreadAt i =
            engine.unreadAt i := unreadAt_kept found owner pit index capacity
          change 6 + 3 * _ + _ < 6 + 3 * _ + _
          omega
      | final =>
          have length := same.length
          change 3 + _ + _ < 3 + _ + _
          omega
  | @returned left caller place past =>
      cases caller with
      | full i tsoTs =>
          have less : 5 + 3 * engine.unreadAt i + engine.scanSteps (i + 1) <
              6 + 3 * engine.unreadAt i + engine.scanSteps (i + 1) := by omega
          rw [remaining_eq place]
          exact less
      | final =>
          have after : (engine.flushReturn .final).remaining = 2 + (engine.index.length - 0) := rfl
          rw [remaining_eq place, stepsAt, after]
          omega
  | @drained i entry ring passed limit place here more =>
      have handed := flushRecord_handed (engine.setEntry i { entry with
        pit := engine.beyond entry ring passed }) ring (slotOf (engine.obj ring).ring.capacity passed)
      have index := @flushRecord_index (engine.setEntry i { entry with
        pit := engine.beyond entry ring passed }) ring (slotOf (engine.obj ring).ring.capacity passed)
      have capacity (other : RingId) := (handed.objs other).capacity
      have same := @SameIndex.set engine _ i entry { entry with
        pit := engine.beyond entry ring passed } here.found rfl index capacity
      have steps := same.scanSteps 0 (by rw [handed.tso]; rfl) (i + 1)
      have unread := here.unread_beyond sound more index (capacity ring)
      rw [remaining_eq (handed.pc.trans place), remaining_eq place]
      change 5 + 3 * _ + _ < 5 + 3 * _ + _
      omega
  | @drainCommitted i entry ring passed place here =>
      have same := @SameIndex.set engine (engine.commitPit i entry ring entry.pit) i entry
        { entry with lastrec := none } here.found rfl rfl
        fun other => ((Kept.commitPit here.found ring entry.pit).objs other).capacity
      have steps := same.scanSteps 0 rfl (i + 1)
      rw [remaining_eq place]
      change 4 + (engine.commitPit i entry ring entry.pit).scanSteps (i + 1) < 5 + 3 * _ + _
      omega
  | @passedOver i place =>
      have less : engine.scanSteps (i + 1) < engine.remaining := by
        cases at' : engine.pc with
        | orphan | empty | kill =>
            rw [at'] at place
            obtain rfl := place
            rw [remaining_eq at', stepsAt]
            omega
        | _ => exact absurd place (by rw [at']; exact id)
      exact less
  | @orphaned i ring place found alone =>
      have less : 3 + engine.scanSteps (i + 1) < 4 + engine.scanSteps (i + 1) := by omega
      rw [remaining_eq place]
      exact less
  | @emptied i ring place found empty =>
      apply goto_lt place
      rw [stepsAt, stepsAt]
      omega
  | @reaped i entry ring place found valid =>
      have steps : (engine.killOrphan i true).scanSteps (i + 1) = engine.scanSteps (i + 1) := by
        rw [killOrphan_eq found valid]
        exact scanSteps_set rfl (fun _ => rfl) rfl
      have after : (engine.killOrphan i true).remaining =
          1 + (engine.killOrphan i true).scanSteps (i + 1) := by
        rw [killOrphan_eq found valid]
        rfl
      rw [after, steps, remaining_eq place, stepsAt]
      omega
  | @released i ring place =>
      have capacity (other : RingId) :
          ((engine.releaseOrphan i ring).obj other).ring.capacity = (engine.obj other).ring.capacity := by
        change ((engine.setRing ring _).obj other).ring.capacity = _
        rw [obj_setRing]
        split
        · rename_i equal
          rw [equal]
        · rfl
      have same : SameIndex engine (engine.releaseOrphan i ring) := ⟨rfl, capacity⟩
      have steps := same.scanSteps 0 rfl (i + 1)
      rw [remaining_eq place]
      change (engine.releaseOrphan i ring).scanSteps (i + 1) < 1 + _
      omega
  | @committed i entry ring slot place found last valid within =>
      have inside := (List.getElem?_eq_some_iff.mp found).1
      have length : (engine.commitPit i entry ring (entry.pit.rewind slot)).index.length =
        engine.index.length := List.length_set
      rw [remaining_eq place]
      change 2 + ((engine.commitPit i entry ring (entry.pit.rewind slot)).index.length - (i + 1)) <
        2 + (engine.index.length - i)
      omega
  | @untouched i entry place found none =>
      apply goto_lt place
      have inside := (List.getElem?_eq_some_iff.mp found).1
      rw [stepsAt, stepsAt]
      omega
  | @settled i place past =>
      apply goto_lt place
      rw [stepsAt, stepsAt]
      omega
  | finished place =>
      apply goto_lt place
      rw [stepsAt, stepsAt]
      omega

/-- The index is rebuilt at the start of a poll only. -/
theorem not_rebuild (shape : engine.EngineStep std next) (busy : engine.pc ≠ .idle) :
    next.pc ≠ .rebuild := by
  cases shape with
  | polled place => exact absurd place busy
  | @reset i entry ring place found valid =>
      intro same
      change (if engine.tsoDisabled then Pc.drain i else .walk i 0) = _ at same
      split at same <;> cases same
  | @popped left caller te rest entry ring place entries found valid within =>
      have pc : ((engine.popTo left caller rest).flushEntry te).pc = .doFlush left caller :=
        (@flushEntry_handed (engine.popTo left caller rest) te entry ring found valid).pc
      rw [pc]
      intro same
      cases same
  | @returned left caller =>
      cases caller <;>
      · intro same
        cases same
  | @drained i entry ring passed limit place here more =>
      have pc := (flushRecord_handed (engine.setEntry i { entry with
        pit := engine.beyond entry ring passed }) ring
          (slotOf (engine.obj ring).ring.capacity passed)).pc.trans place
      rw [pc]
      intro same
      cases same
  | reaped _ found valid =>
      rw [killOrphan_eq found valid]
      intro same
      cases same
  | _ =>
      intro same
      cases same

end EngineStep

theorem SameIndex.stepsAt (same : SameIndex engine next) (index : next.index = engine.index)
    (tso : next.tso = engine.tso) : next.stepsAt = engine.stepsAt := by
  have unread (i : Nat) : next.unreadAt i = engine.unreadAt i := by
    simp only [unreadAt, index, same.capacity]
  have steps (i : Nat) : next.scanSteps i = engine.scanSteps i :=
    same.scanSteps 0 (by rw [tso, Nat.add_zero]) i
  funext pc
  cases pc with
  | doFlush left caller =>
      cases caller <;> simp only [Engine.stepsAt, unread, steps, index, tso]
  | _ => simp only [Engine.stepsAt, unread, steps, index]

/-- A client leaves the engine as much to do as it had. -/
theorem remaining_client {shared : Shared} (step : Shared.ClientStep engine.shared shared) :
    ({ engine with shared } : Engine).remaining = engine.remaining := by
  have same : SameIndex engine { engine with shared } := ⟨rfl, fun ring => (step.same ring).capacity⟩
  exact congrFun (same.stepsAt rfl rfl) engine.pc

theorem settles (sound : engine.Sound) (std : StdSort) (outside : engine.pc ≠ .rebuild)
    (actions : List Action) (enough : engine.remaining ≤ actions.countP Action.works) :
    ∃ earlier later, actions = earlier ++ later ∧
      earlier.countP Action.works ≤ engine.remaining ∧ (engine.after std earlier).pc = .idle := by
  obtain ⟨earlier, later, split, few, -, rests⟩ := @runs_settles _ _ (act std)
    (fun state => state.Sound ∧ state.pc ≠ .rebuild) (fun state => state.pc ≠ .idle)
    remaining Action.works engine
    (fun state action holds busy => ⟨holds.1.act std action, by
      cases action with
      | engine trylock => exact (holds.1.tracked.shape std trylock).not_rebuild busy
      | client op => exact holds.2⟩)
    (fun state holds busy => remaining_pos holds.1 ⟨busy, holds.2⟩)
    (fun state action holds busy works => by
      cases action with
      | engine trylock => exact (holds.1.tracked.shape std trylock).remaining_lt holds.1 ⟨busy, holds.2⟩
      | client op => cases works)
    (fun state action holds busy works => by
      cases action with
      | engine trylock => cases works
      | client op => exact (remaining_client (state.shared.apply_step op)).le)
    ⟨sound, outside⟩ actions enough
  exact ⟨earlier, later, split, few, Decidable.of_not_not rests⟩

/-! ## The length of a poll -/

/-- Six steps for each ring of the index and three for each of its slots, one
for each index entry and each record in the TSO buffer, and five more. -/
def pollSteps (engine : Engine) : Nat :=
  5 + engine.index.length + engine.tso.size + engine.stepsFrom 0

theorem stepsFrom_le (engine : Engine) (i : Nat) : engine.stepsFrom i ≤ engine.stepsFrom 0 := by
  have split : (engine.index.map (·.ring)).take i ++ (engine.index.map (·.ring)).drop i =
    (engine.index.map (·.ring)).drop 0 := List.take_append_drop i _
  rw [stepsFrom, stepsFrom, ← split, List.map_append, List.sum_append]
  omega

theorem scanSteps_lt (engine : Engine) (i : Nat) : engine.scanSteps i < engine.pollSteps := by
  have less := engine.stepsFrom_le i
  rw [scanSteps, pollSteps]
  omega

theorem unreadAt_lt (sound : engine.Sound) (i : Nat) (walks : engine.pc.Walking i) :
    6 + 3 * engine.unreadAt i + engine.scanSteps (i + 1) ≤ engine.pollSteps := by
  obtain ⟨entry, ring, found, valid, passed, limit, stands, lower, upper⟩ :=
    sound.tracked.walking i walks
  have here : engine.AtRecord i entry ring passed limit := ⟨found, valid, stands, lower, upper⟩
  have unread := here.unread sound
  have near := stands.near
  have whole := engine.scanSteps_lt i
  rw [scanSteps_succ found, valid, ringSteps, slotCount] at whole
  omega

theorem reaping_le (sound : engine.Sound) (i : Nat) (reaps : engine.pc.Reaping i) :
    4 + engine.scanSteps (i + 1) ≤ engine.pollSteps := by
  obtain ⟨ring, indexed⟩ := sound.tracked.reaping i reaps
  obtain ⟨entry, found, valid⟩ := ringAt_eq_some.mp indexed
  have whole := engine.scanSteps_lt i
  rw [scanSteps_succ found, valid, ringSteps] at whole
  omega

theorem remaining_le (sound : engine.Sound) : engine.remaining ≤ engine.pollSteps := by
  cases place : engine.pc with
  | walk i tsoTs =>
      have least := unreadAt_lt sound i (by rw [place]; rfl)
      rw [remaining_eq place, stepsAt]
      omega
  | drain i =>
      have least := unreadAt_lt sound i (by rw [place]; rfl)
      rw [remaining_eq place, stepsAt]
      omega
  | doFlush left caller =>
      cases caller with
      | full i tsoTs =>
          have least := unreadAt_lt sound i (by rw [place]; rfl)
          rw [remaining_eq place, stepsAt]
          omega
      | final =>
          rw [remaining_eq place, stepsAt, pollSteps]
          omega
  | orphan i | empty i | kill i =>
      have least := reaping_le sound i (by rw [place]; rfl)
      rw [remaining_eq place, stepsAt]
      omega
  | scan i =>
      have least := engine.scanSteps_lt i
      rw [remaining_eq place, stepsAt]
      omega
  | release i ring =>
      have least := engine.scanSteps_lt (i + 1)
      rw [remaining_eq place, stepsAt]
      omega
  | idle | rebuild | halted | commit | finish =>
      rw [remaining_eq place, stepsAt, pollSteps]
      omega

/-- A ring is registered, and the engine has rebuilt its index. -/
def openedRun : List Action :=
  [.client (.addNamed 0), .client (.markDirty 0), .engine true, .engine true]

/-- The client posts a record behind every step of the engine. -/
def postingRun : List Action :=
  (List.replicate 24 [.engine true, .client (.begin 0 (Post.zeroRecord 256)),
    .client (.finish 0)]).flatten

end Engine

end Hogl.Polling
