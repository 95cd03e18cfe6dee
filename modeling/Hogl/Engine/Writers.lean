import Hogl.Engine.Clients

namespace Hogl.Polling

open Hogl.Data Hogl.Ring

/-! # What a client step does to the writer of one ring -/

/-- The events that the writer of `ring` logs. -/
def Event.postingTo (ring : RingId) : Event → Bool
  | .begun other | .reserved other | .committed other _ | .dropped other | .returned other _
  | .unwaited other => other == ring
  | _ => false

namespace Shared

variable {shared : Shared} {ring : RingId}

inductive WriterStep (ring : RingId) (before after : Shared) : Prop where
  | same {events : List Event}
      (ringEq : (after.rings ring).ring = (before.rings ring).ring)
      (writerEq : (after.rings ring).writer = (before.rings ring).writer)
      (trace : after.trace = before.trace ++ events)
      (elsewhere : ∀ event ∈ events, event.byClient ∧ event.postingTo ring = false)
  | began (record : Record) (idle : (before.rings ring).writer = .idle)
      (ringEq : (after.rings ring).ring =
        ((before.rings ring).ring.store (before.rings ring).ring.tail { record with
          seqnum := BitVec.ofNat 52 (before.rings ring).ring.seqnum.toNat }).incSeqnum)
      (writerEq : (after.rings ring).writer = .filled)
      (trace : after.trace = before.trace ++ [.begun ring])
  | finished (filled : (before.rings ring).writer = .filled)
      (room : (before.rings ring).ring.head ≠ (before.rings ring).ring.tail)
      (ringEq : (after.rings ring).ring = (before.rings ring).ring.commitTail
        (((before.rings ring).ring.tail + 1) &&& (before.rings ring).ring.capacity))
      (writerEq : (after.rings ring).writer = .idle)
      (trace : after.trace = before.trace ++
        [.committed ring ((before.rings ring).ring.slots (before.rings ring).ring.tail)])
  | dropped (filled : (before.rings ring).writer = .filled)
      (ringEq : (after.rings ring).ring = (before.rings ring).ring.incDropcnt)
      (writerEq : (after.rings ring).writer = .idle)
      (trace : after.trace = before.trace ++ [.dropped ring])
  | reserved (idle : (before.rings ring).writer = .idle)
      (ringEq : (after.rings ring).ring = (before.rings ring).ring.incSeqnum)
      (writerEq : (after.rings ring).writer = .reserved (before.rings ring).ring.seqnum)
      (trace : after.trace = before.trace ++ [.reserved ring])
  | gaveUp {seqnum : UInt64} (waiting : (before.rings ring).writer = .reserved seqnum)
      (ringEq : (after.rings ring).ring = (before.rings ring).ring)
      (writerEq : (after.rings ring).writer = .idle)
      (trace : after.trace = before.trace ++ [.returned ring false])
  | armed {seqnum : UInt64} (waiting : (before.rings ring).writer = .reserved seqnum)
      (record : Record) (type : UInt32) (arg1 arg2 : UInt64)
      (room : (before.rings ring).ring.room ≠ 0)
      (ringEq : (after.rings ring).ring = (before.rings ring).ring.store
        (before.rings ring).ring.tail (record.makeSpecial type arg1 arg2))
      (writerEq : (after.rings ring).writer = .armed) (trace : after.trace = before.trace)
      (stamp : record.seqnum = BitVec.ofNat 52 seqnum.toNat)
  | published (filled : (before.rings ring).writer = .armed)
      (room : (before.rings ring).ring.head ≠ (before.rings ring).ring.tail)
      (ringEq : (after.rings ring).ring = (before.rings ring).ring.commitTail
        (((before.rings ring).ring.tail + 1) &&& (before.rings ring).ring.capacity))
      (writerEq : (after.rings ring).writer = .awaiting (before.rings ring).ring.tail)
      (trace : after.trace = before.trace ++
        [.committed ring ((before.rings ring).ring.slots (before.rings ring).ring.tail)])
  | refused (filled : (before.rings ring).writer = .armed)
      (full : (before.rings ring).ring.head = (before.rings ring).ring.tail)
      (ringEq : (after.rings ring).ring = (before.rings ring).ring.incDropcnt)
      (writerEq : (after.rings ring).writer = .awaiting (before.rings ring).ring.tail)
      (trace : after.trace = before.trace ++ [.dropped ring])
  | observed {slot : UInt32} (waiting : (before.rings ring).writer = .awaiting slot)
      (acked : ((before.rings ring).ring.slots slot).acked = true)
      (ringEq : (after.rings ring).ring = (before.rings ring).ring)
      (writerEq : (after.rings ring).writer = .idle)
      (trace : after.trace = before.trace ++ [.returned ring true])
  | left {slot : UInt32} {event : Event} (waiting : (before.rings ring).writer = .awaiting slot)
      (kind : event = .returned ring false ∨ event = .unwaited ring)
      (ringEq : (after.rings ring).ring = (before.rings ring).ring)
      (writerEq : (after.rings ring).writer = .idle)
      (trace : after.trace = before.trace ++ [event])

namespace WriterStep

theorem refl (ring : RingId) (shared : Shared) : WriterStep ring shared shared :=
  .same rfl rfl (List.append_nil _).symm (List.forall_mem_nil _)

/-- A step that rewrites the object of another ring. -/
theorem elsewhere {target : RingId} {obj : RingObj} {event : Event} (different : ring ≠ target)
    (byClient : event.byClient) (posting : event.postingTo ring = false) :
    WriterStep ring shared ((shared.setRing target obj).log event) := by
  have same : ((shared.setRing target obj).log event).rings ring = shared.rings ring := by
    rw [log_rings, setRing_rings, if_neg different]
  exact .same (by rw [same]) (by rw [same]) rfl (List.forall_mem_singleton.mpr ⟨byClient, posting⟩)

theorem pushCommit (target : RingId) (next : Writer)
    (committed : ring = target → (shared.rings ring).ring.head ≠ (shared.rings ring).ring.tail →
      WriterStep ring shared ((shared.setRing ring { shared.rings ring with
        ring := (shared.rings ring).ring.commitTail
          (((shared.rings ring).ring.tail + 1) &&& (shared.rings ring).ring.capacity)
        writer := next }).log
          (.committed ring ((shared.rings ring).ring.slots (shared.rings ring).ring.tail))))
    (dropped : ring = target → (shared.rings ring).ring.head = (shared.rings ring).ring.tail →
      WriterStep ring shared ((shared.setRing ring { shared.rings ring with
        ring := (shared.rings ring).ring.incDropcnt
        writer := next }).log (.dropped ring))) :
    WriterStep ring shared (shared.pushCommit target next) := by
  rcases shared.pushCommit_cases target next with same | ⟨room, result⟩ | ⟨full, result⟩
  · rw [same]
    exact .refl ring shared
  · rw [result]
    by_cases other : ring = target
    · subst other
      exact committed rfl room
    · exact .elsewhere other rfl (beq_eq_false_iff_ne.mpr (Ne.symm other))
  · rw [result]
    by_cases other : ring = target
    · subst other
      exact dropped rfl full
    · exact .elsewhere other rfl (beq_eq_false_iff_ne.mpr (Ne.symm other))

end WriterStep

/-- The object of a ring whose own object is rewritten. -/
theorem own_rings (ring : RingId) (obj : RingObj) (event : Event) :
    ((shared.setRing ring obj).log event).rings ring = obj := by
  rw [log_rings, setRing_rings, if_pos rfl]

theorem leave_writer (target : RingId) {event : Event}
    (kind : event = .returned target false ∨ event = .unwaited target) :
    WriterStep ring shared (shared.leave target event) := by
  have byClient : event.byClient := by rcases kind with rfl | rfl <;> rfl
  simp only [leave]
  split
  · rename_i slot waiting
    split
    · exact .refl ring shared
    · by_cases other : ring = target
      · subst other
        exact .left waiting kind (by rw [own_rings]) (by rw [own_rings]) rfl
      · refine .elsewhere other byClient ?_
        rcases kind with rfl | rfl <;> exact beq_eq_false_iff_ne.mpr (Ne.symm other)
  · exact .refl ring shared

/-- Rewriting an object around its writer leaves all writers. -/
theorem setRing_writer {target : RingId} {obj : RingObj}
    (kept : obj.writer = (shared.rings target).writer) (ring : RingId) :
    ((shared.setRing target obj).rings ring).writer = (shared.rings ring).writer := by
  rw [setRing_rings]
  split
  · rename_i equal
    rw [equal, kept]
  · rfl

theorem apply_writer (ring : RingId) (shared : Shared) (op : Op) :
    WriterStep ring shared (shared.apply op) := by
  cases op with
  | addNamed target =>
      simp only [apply]
      split
      · exact .refl ring shared
      · split
        · exact .same (register_ring target _ ring) (setRing_writer (by rfl) ring) rfl
            (List.forall_mem_singleton.mpr ⟨rfl, rfl⟩)
        · rename_i existing _
          exact .same ((release_ring target ring).trans (hold_ring existing ring))
            ((setRing_writer (by rfl) ring).trans (setRing_writer (by rfl) ring)) rfl
            (List.forall_mem_singleton.mpr ⟨rfl, rfl⟩)
  | markDirty target =>
      simp only [apply]
      split
      · exact .same rfl rfl (List.append_nil _).symm (List.forall_mem_nil _)
      · exact .refl ring shared
  | addRing target =>
      simp only [apply]
      split
      · exact .refl ring shared
      · split
        · exact .same (register_ring target _ ring) (setRing_writer (by rfl) ring) rfl
            (List.forall_mem_singleton.mpr ⟨rfl, rfl⟩)
        · exact .refl ring shared
  | hold target =>
      simp only [apply]
      split
      · exact .same (hold_ring target ring) (setRing_writer (by rfl) ring) rfl
          (List.forall_mem_singleton.mpr ⟨rfl, rfl⟩)
      · exact .refl ring shared
  | release target =>
      simp only [apply]
      split
      · exact .refl ring shared
      · exact .same (release_ring target ring) (setRing_writer (by rfl) ring)
          (List.append_nil _).symm (List.forall_mem_nil _)
  | begin target record =>
      simp only [apply]
      split
      · exact .refl ring shared
      · rename_i enabled
        by_cases other : ring = target
        · subst other
          have idle : (shared.rings ring).writer = .idle := by
            by_contra busy
            exact enabled (.inr busy)
          exact .began record idle (by rw [own_rings]; rfl) (by rw [own_rings]) rfl
        · exact .elsewhere other rfl (beq_eq_false_iff_ne.mpr (Ne.symm other))
  | finish target =>
      simp only [apply]
      split
      · exact .refl ring shared
      · rename_i enabled
        have filled : (shared.rings target).writer = .filled := by
          by_contra busy
          exact enabled (.inr busy)
        refine .pushCommit target .idle ?_ ?_
        · rintro rfl room
          exact .finished filled room (by rw [own_rings]) (by rw [own_rings]) rfl
        · rintro rfl full
          exact .dropped filled (by rw [own_rings]) (by rw [own_rings]) rfl
  | reserve target =>
      simp only [apply]
      split
      · exact .refl ring shared
      · rename_i enabled
        by_cases other : ring = target
        · subst other
          have idle : (shared.rings ring).writer = .idle := by
            by_contra busy
            exact enabled (.inr busy)
          exact .reserved idle (by rw [own_rings]) (by rw [own_rings]) rfl
        · exact .elsewhere other rfl (beq_eq_false_iff_ne.mpr (Ne.symm other))
  | giveUp target =>
      simp only [apply]
      split
      · rename_i seqnum waiting
        split
        · exact .refl ring shared
        · by_cases other : ring = target
          · subst other
            exact .gaveUp waiting (by rw [own_rings]) (by rw [own_rings]) rfl
          · exact .elsewhere other rfl (beq_eq_false_iff_ne.mpr (Ne.symm other))
      · exact .refl ring shared
  | arm target timestamp type arg1 arg2 =>
      simp only [apply]
      split
      · rename_i seqnum waiting
        split
        · exact .refl ring shared
        · rename_i enabled
          by_cases other : ring = target
          · subst other
            exact .armed waiting _ type arg1 arg2 (fun none => enabled (.inr none))
              (by rw [setRing_rings, if_pos rfl]; rfl) (by rw [setRing_rings, if_pos rfl]) rfl rfl
          · refine .same ?_ ?_ (List.append_nil _).symm (List.forall_mem_nil _)
            · rw [setRing_rings, if_neg other]
            · rw [setRing_rings, if_neg other]
      · exact .refl ring shared
  | publish target =>
      simp only [apply]
      split
      · exact .refl ring shared
      · rename_i enabled
        have armed : (shared.rings target).writer = .armed := by
          by_contra busy
          exact enabled (.inr busy)
        refine .pushCommit target _ ?_ ?_
        · rintro rfl room
          exact .published armed room (by rw [own_rings]) (by rw [own_rings]) rfl
        · rintro rfl full
          exact .refused armed full (by rw [own_rings]) (by rw [own_rings]) rfl
  | observe target =>
      simp only [apply]
      split
      · rename_i slot waiting
        split
        · exact .refl ring shared
        · rename_i enabled
          by_cases other : ring = target
          · subst other
            have acked : ((shared.rings ring).ring.slots slot).acked = true := by
              cases seen : ((shared.rings ring).ring.slots slot).acked with
              | true => rfl
              | false => exact absurd (.inr seen) enabled
            exact .observed waiting acked (by rw [own_rings]) (by rw [own_rings]) rfl
          · exact .elsewhere other rfl (beq_eq_false_iff_ne.mpr (Ne.symm other))
      · exact .refl ring shared
  | abandon target => exact leave_writer target (.inl rfl)
  | skipWait target => exact leave_writer target (.inr rfl)
  | mask dropmark tsofullmark =>
      exact .same rfl rfl (List.append_nil _).symm (List.forall_mem_nil _)

end Shared

end Hogl.Polling
