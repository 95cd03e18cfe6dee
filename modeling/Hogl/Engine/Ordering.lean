import Hogl.Engine.Merging

namespace Hogl.Polling

open Hogl.Data Hogl.Ring

/-! # The order of the output

The rings are snapshotted one after another, so a poll can see a late record
of one ring and miss an earlier one of another.  What was committed since the
first snapshot of the poll stays behind in the reserve of `flush_tso`. -/

/-- The records committed to some rings, in the order of the commits. -/
def committedAmong (rings : Finset RingId) (trace : List Event) : List Record :=
  trace.filterMap fun
    | .committed ring record => if ring ∈ rings then some record else none
    | _ => none

/-- Between any two snapshots of a poll at most `most` records are committed. -/
def Light (rings : Finset RingId) (most : Nat) (trace : List Event) : Prop :=
  ∀ early first window last late,
    trace = early ++ .snapshot first :: window ++ .snapshot last :: late → .polled ∉ window →
    (committedAmong rings window).length ≤ most

/-- The push of an entry that does not fill a buffer of `size` entries. -/
def Event.spares (size : Nat) : Event → Bool
  | .tsoPush tail => tail + 1 != size
  | _ => true

/-- What a run with a TSO buffer of `size` entries has to keep to. -/
structure Orderly (rings : Finset RingId) (size : Nat) (trace : List Event) : Prop where
  ordered : (committedAmong rings trace).Pairwise fun first second =>
    first.timestamp ≤ second.timestamp
  rising : ∀ ring ∈ rings, Rising (committedTo ring trace)
  light : Light rings (size / 8) trace
  unfilled : ∀ event ∈ trace, event.spares size

variable {rings : Finset RingId} {size : Nat} {trace : List Event}

theorem committedAmong_append (first second : List Event) :
    committedAmong rings (first ++ second) =
      committedAmong rings first ++ committedAmong rings second :=
  List.filterMap_append

theorem Orderly.of_append {events : List Event} (orderly : Orderly rings size (trace ++ events)) :
    Orderly rings size trace := by
  refine ⟨?_, fun ring inside => ?_, ?_, fun event member => ?_⟩
  · have ordered := orderly.ordered
    rw [committedAmong_append] at ordered
    exact (List.pairwise_append.mp ordered).1
  · have rising := orderly.rising ring inside
    rw [committedTo_append] at rising
    exact rising.of_prefix (List.prefix_append _ _)
  · intro early first window last late split unpolled
    refine orderly.light early first window last (late ++ events) ?_ unpolled
    rw [split, List.append_assoc, List.cons_append]
  · exact orderly.unfilled event (List.mem_append_left _ member)

/-- A sum over the rings counts each commit once. -/
theorem sum_committed (rings : Finset RingId) (trace : List Event) :
    ∑ ring ∈ rings, (committedTo ring trace).length = (committedAmong rings trace).length := by
  induction trace with
  | nil => exact Finset.sum_const_zero
  | cons event rest ih =>
      have here : ∑ ring ∈ rings, (committedTo ring [event]).length =
          (committedAmong rings [event]).length := by
        cases event with
        | committed owner record =>
            have each (ring : RingId) : (committedTo ring [.committed owner record]).length =
                if owner = ring then 1 else 0 := by
              simp only [committedTo, List.filterMap_cons, List.filterMap_nil]
              split <;> simp_all
            simp only [each, Finset.sum_ite_eq]
            simp only [committedAmong, List.filterMap_cons, List.filterMap_nil]
            split <;> simp_all
        | _ => exact Finset.sum_const_zero
      rw [← List.singleton_append, committedAmong_append, List.length_append, ← here, ← ih,
        ← Finset.sum_add_distrib]
      refine Finset.sum_congr rfl fun ring _ => ?_
      rw [committedTo_append, List.length_append]

theorem light_of_few {most : Nat} (few : (committedAmong rings trace).length ≤ most) :
    Light rings most trace := by
  rintro early first window last late rfl -
  refine Nat.le_trans ?_ few
  rw [committedAmong_append, committedAmong_append, ← List.singleton_append, committedAmong_append]
  simp only [List.length_append]
  omega

theorem mem_among {ring : RingId} {record : Record} (inside : ring ∈ rings)
    (member : record ∈ committedTo ring trace) : record ∈ committedAmong rings trace := by
  obtain ⟨event, logged, found⟩ := List.mem_filterMap.mp member
  refine List.mem_filterMap.mpr ⟨event, logged, ?_⟩
  cases event with
  | committed owner record' =>
      dsimp only at found ⊢
      split at found
      · rename_i same
        rwa [if_pos (same ▸ inside)]
      · cases found
  | _ => cases found

/-- What was committed before comes no later in time. -/
theorem Orderly.before {early late : List Event} (orderly : Orderly rings size (early ++ late))
    {ring other : RingId} {record later : Record} (inside : ring ∈ rings) (also : other ∈ rings)
    (first : record ∈ committedTo ring early) (second : later ∈ committedTo other late) :
    timeOf record ≤ timeOf later := by
  have ordered := orderly.ordered
  rw [committedAmong_append] at ordered
  have least := (List.pairwise_append.mp ordered).2.2 record (mem_among inside first) later
    (mem_among also second)
  exact UInt64.le_iff_toNat_le.mp least

/-- `mark` counts what was committed before the first snapshot of the running poll. -/
def Marked (mark : RingId → Nat) (trace : List Event) : Prop :=
  ∃ early first window, trace = early ++ .snapshot first :: window ∧ .polled ∉ window ∧
    ∀ ring, mark ring = (committedTo ring early).length

section Positions

variable {ring : RingId} {record : Record} {early late : List Event} {position : Nat}

theorem mem_early (below : position < (committedTo ring early).length)
    (read : (committedTo ring (early ++ late))[position]? = some record) :
    record ∈ committedTo ring early := by
  rw [committedTo_append, List.getElem?_append_left below] at read
  exact List.mem_of_getElem? read

theorem mem_late (above : (committedTo ring early).length ≤ position)
    (read : (committedTo ring (early ++ late))[position]? = some record) :
    record ∈ committedTo ring late := by
  rw [committedTo_append, List.getElem?_append_right above] at read
  exact List.mem_of_getElem? read

end Positions

namespace Engine

variable {engine next : Engine} {merge after : Merge RingId Nat} {move : Move RingId}

/-- The index is empty or has these rings. -/
def Fixes (rings : Finset RingId) (engine : Engine) : Prop :=
  engine.index = [] ∨ engine.Lists rings

instance (engine : Engine) (rings : Finset RingId) : Decidable (engine.Fixes rings) :=
  inferInstanceAs (Decidable (_ ∨ _))

theorem Fixes.known (fixed : engine.Fixes rings) {i : Nat} {ring : RingId}
    (found : engine.ringAt i = some ring) : ring ∈ rings := by
  rcases fixed with empty | same
  · rw [ringAt, empty] at found
    cases found
  · exact (same ring).mpr ⟨i, found⟩

/-- A poll that settles has read all rings of the index. -/
theorem Refines.complete (refines : Refines engine merge) (sound : engine.Sound)
    (fixed : engine.Fixes rings) {left : Nat} {closed : List RingId}
    (stage : merge.stage = .flushing left closed none) :
    merge.buffer = [] ∨ ∀ ring ∈ rings, ring ∈ closed := by
  rcases fixed with empty | same
  · refine .inl ?_
    rw [refines.buffer]
    refine List.eq_nil_iff_forall_not_mem.mpr fun item member => ?_
    obtain ⟨te, entry, -⟩ := List.mem_map.mp member
    obtain ⟨ring, found, -⟩ := sound.tracked.tagged te entry
    rw [ringAt, empty] at found
    cases found
  · refine .inr fun ring inside => ?_
    obtain ⟨i, found⟩ := (same ring).mp inside
    exact refines.shows.settled stage (i + 1) i (Nat.lt_succ_self i) ring found

theorem Refines.cut (refines : Refines engine merge) {mark : RingId → Nat}
    (orderly : Orderly rings size engine.shared.trace) (marked : Marked mark engine.shared.trace) :
    Merge.Cut (· ≤ ·) rings mark merge := by
  obtain ⟨early, first, window, split, -, lengths⟩ := marked
  intro ring inside other also old new key later _ below above read readLater
  rw [refines.queued, List.getElem?_map, Option.map_eq_some_iff] at read readLater
  obtain ⟨record, found, rfl⟩ := read
  obtain ⟨behind, foundLater, rfl⟩ := readLater
  rw [Shared.committed, split] at found foundLater
  rw [split] at orderly
  rw [lengths] at below above
  exact orderly.before inside also (mem_early below found) (mem_late above foundLater)

/-- The invariant that holds the output in order. -/
structure Ordered (rings : Finset RingId) (size : Nat) (engine : Engine) (merge : Merge RingId Nat) :
    Prop where
  refines : Refines engine merge
  faithful : Merge.Faithful rings merge
  inOrder : Merge.InOrder rings merge
  sourced : Merge.Sourced rings merge
  phase : Merge.Fresh rings merge ∨
    ∃ mark, Marked mark engine.shared.trace ∧ Merge.Paced rings (size / 8) mark merge

namespace Ordered

/-- While items go out, those from before the first snapshot are left. -/
theorem due (ordered : Ordered rings size engine merge) (sound : engine.Sound)
    (fixed : engine.Fixes rings) (orderly : Orderly rings size engine.shared.trace) {left : Nat}
    {closed : List RingId} {current : Option (RingId × Nat)}
    (stage : merge.stage = .flushing (left + 1) closed current) (some' : merge.buffer ≠ []) :
    ∃ mark, Merge.Cut (· ≤ ·) rings mark merge ∧ 0 < merge.olds rings mark ∧
      ∀ ring ∈ rings, mark ring ≤ merge.reach ring := by
  rcases ordered.phase with fresh | ⟨mark, marked, paced⟩
  · exact absurd fresh.empty some'
  · obtain ⟨rfl, empty | enough⟩ := paced.due _ _ _ stage
    · exact absurd empty some'
    · refine ⟨mark, ordered.refines.cut orderly marked, by omega, fun ring inside => ?_⟩
      apply paced.covers.closed
      rw [stage]
      exact (ordered.refines.complete sound fixed stage).resolve_left some' ring inside

/-- What was handed over precedes what is committed afterwards. -/
theorem later (ordered : Ordered rings size engine merge) (refines : Refines next after)
    {events : List Event} (trace : next.shared.trace = engine.shared.trace ++ events)
    (orderly : Orderly rings size next.shared.trace) {key item : Nat} (member : key ∈ merge.output)
    {ring : RingId} (inside : ring ∈ rings) {position : Nat}
    (above : (merge.queued ring).length ≤ position)
    (read : (after.queued ring)[position]? = some item) : key ≤ item := by
  obtain ⟨owner, also, queued⟩ := ordered.sourced key member
  rw [ordered.refines.queued, List.mem_map] at queued
  obtain ⟨record, early, rfl⟩ := queued
  rw [refines.queued, List.getElem?_map, Option.map_eq_some_iff] at read
  obtain ⟨behind, found, rfl⟩ := read
  rw [ordered.refines.queued, List.length_map] at above
  rw [Shared.committed, trace] at found
  rw [trace] at orderly
  exact orderly.before also inside early (mem_late above found)

theorem phases (ordered : Ordered rings size engine merge)
    (step : Merge.Step size (size / 8) merge move after) (refines : Refines next after)
    {events : List Event} (trace : next.shared.trace = engine.shared.trace ++ events)
    (logged : Logged move events)
    (pushed : ∀ ring, move = .taken ring → .tsoPush merge.buffer.length ∈ next.shared.trace)
    (orderly : Orderly rings size next.shared.trace) (sound : next.Sound)
    (fixed : next.Fixes rings) :
    Merge.Fresh rings after ∨
      ∃ mark, Marked mark next.shared.trace ∧ Merge.Paced rings (size / 8) mark after := by
  rcases ordered.phase with fresh | ⟨mark, marked, paced⟩
  · rcases fresh.step ordered.faithful step with again | ⟨rfl, paced⟩
    · exact .inl again
    · obtain ⟨ring, rfl⟩ := logged
      refine .inr ⟨_, ⟨engine.shared.trace, ring, [], trace, List.not_mem_nil, fun owner => ?_⟩, paced⟩
      rw [ordered.refines.queued, List.length_map, Shared.committed]
  · obtain ⟨early, first, window, split, unpolled, lengths⟩ := marked
    have still : .polled ∉ events := by
      cases move with
      | begun => exact absurd step.begun_resting paced.busy
      | opened =>
          obtain ⟨ring, rfl⟩ := logged
          simp
      | _ => exact logged
    have load (opens : move = .opened) :
        ∑ ring ∈ rings, ((merge.queued ring).length - mark ring) ≤ size / 8 := by
      subst opens
      obtain ⟨ring, rfl⟩ := logged
      have most := orderly.light early first window ring [] (trace.trans (by rw [split])) unpolled
      rw [← sum_committed] at most
      refine (Finset.sum_congr rfl fun owner _ => ?_).trans_le most
      rw [ordered.refines.queued, List.length_map, Shared.committed, split, lengths,
        committedTo_append, List.length_append, Nat.add_sub_cancel_left]
      rfl
    rcases paced.step ordered.faithful step (fun ring takes => bne_iff_ne.mp (orderly.unfilled _
      (pushed ring takes))) load (fun left closed stage => refines.complete sound fixed stage) with paced | ⟨-, fresh⟩
    · refine .inr ⟨mark, ⟨early, first, window ++ events, ?_, ?_, lengths⟩, paced⟩
      · rw [trace, split, List.append_assoc, List.cons_append]
      · exact fun member => (List.mem_append.mp member).elim unpolled still
    · exact .inl fresh

theorem step (ordered : Ordered rings size engine merge)
    (step : Merge.Step size (size / 8) merge move after) (refines : Refines next after)
    (logged : ∃ events, next.shared.trace = engine.shared.trace ++ events ∧ Logged move events)
    (taken : ∀ ring, move = .taken ring → (∃ i, engine.ringAt i = some ring) ∧
      .tsoPush merge.buffer.length ∈ next.shared.trace)
    (sound : engine.Sound) (fixed : engine.Fixes rings) (soundNext : next.Sound)
    (fixedNext : next.Fixes rings) (orderly : Orderly rings size next.shared.trace) :
    Ordered rings size next after := by
  obtain ⟨events, trace, log⟩ := logged
  have earlier : Orderly rings size engine.shared.trace := (trace ▸ orderly).of_append
  have rising (ring : RingId) (inside : ring ∈ rings) : (merge.queued ring).Pairwise (· ≤ ·) := by
    rw [ordered.refines.queued]
    exact (earlier.rising ring inside).keys
  refine ⟨refines, ordered.faithful.step step rising ?_, ordered.inOrder.step ordered.faithful step
    ?_ ?_, ordered.sourced.step ordered.faithful step, ordered.phases step refines trace log
    (fun ring takes => (taken ring takes).2) orderly soundNext fixedNext⟩
  · intro ring takes
    obtain ⟨i, found⟩ := (taken ring takes).1
    exact fixed.known found
  · exact fun left closed current stage some' => ordered.due sound fixed earlier stage some'
  · exact fun key member ring inside position item above read =>
      ordered.later refines trace orderly member inside above read

theorem act (ordered : Ordered rings size engine merge) (std : StdSort) (action : Action)
    (sound : engine.Sound) (roomy : engine.Roomy size) (enabled : engine.tsoDisabled = false)
    (delivering : ∀ ring ∈ rings, engine.Delivering ring) (fixed : engine.Fixes rings)
    (fixedNext : (engine.act std action).Fixes rings)
    (orderly : Orderly rings size (engine.act std action).shared.trace) :
    ∃ after, Ordered rings size (engine.act std action) after := by
  obtain ⟨events, trace⟩ := sound.act_trace std action
  have earlier : Orderly rings size engine.shared.trace := by
    rw [trace] at orderly
    exact orderly.of_append
  obtain ⟨after, move, advanced⟩ := ordered.refines.act std action ordered.faithful sound roomy
    enabled (fun ring i found => delivering ring (fixed.known found))
    (fun ring i found => earlier.rising ring (fixed.known found))
  exact ⟨after, ordered.step advanced.step advanced.refines advanced.logged advanced.taken sound
    fixed (sound.act std action) fixedNext orderly⟩

end Ordered

theorem after_ordered (std : StdSort) (capacity : UInt32) (large : 2 ≤ tsoSize capacity)
    (timesource : UInt64) {start : RingId → RingObj} (fresh : ∀ ring, (start ring).Fresh)
    (actions : List Action)
    (fixed : ∀ earlier, earlier <+: actions →
      ((create capacity false timesource start).after std earlier).Fixes rings)
    (orderly : Orderly rings (tsoSize capacity)
      ((create capacity false timesource start).after std actions).shared.trace) :
    ∃ merge, Ordered rings (tsoSize capacity)
      ((create capacity false timesource start).after std actions) merge := by
  induction actions using List.reverseRecOn with
  | nil =>
      exact ⟨.start, create_refines capacity false timesource start, .start rings,
        ⟨.nil, List.forall_mem_nil _⟩, List.forall_mem_nil _, .inl ⟨rfl, .inl ⟨.inl rfl, Nat.zero_le _⟩⟩⟩
  | append_singleton earlier last ih =>
      have sound := (create_sound capacity false timesource fresh).after std earlier
      obtain ⟨events, trace⟩ := sound.act_trace std last
      have grown : (create capacity false timesource start).after std (earlier ++ [last]) =
        ((create capacity false timesource start).after std earlier).act std last := runs_concat _ _ _ _
      have before : Orderly rings (tsoSize capacity)
          ((create capacity false timesource start).after std earlier).shared.trace := by
        rw [grown, trace] at orderly
        exact orderly.of_append
      obtain ⟨merge, ordered⟩ := ih (fun first inside => fixed first (inside.trans
        (List.prefix_append _ _))) before
      rw [grown] at orderly ⊢
      refine ordered.act std last sound (after_roomy std capacity timesource fresh large earlier)
        ((create_sound capacity false timesource fresh).after_mode earlier) (fun ring inside => ?_)
        (fixed earlier (List.prefix_append _ _)) (grown ▸ fixed _ List.prefix_rfl) orderly
      exact (after_delivering std capacity false timesource fresh earlier
        ((before.rising ring inside).climbing _)).1

/-- While few records are committed between the snapshots of a poll and the
TSO buffer does not fill up, the output of the engine is in the order of time. -/
theorem flushed_in_order (std : StdSort) (capacity : UInt32) (large : 2 ≤ tsoSize capacity)
    (timesource : UInt64) (start : RingId → RingObj) (fresh : ∀ ring, (start ring).Fresh)
    (rings : Finset RingId) (actions : List Action)
    (fixed : ∀ earlier, earlier <+: actions →
      ((create capacity false timesource start).after std earlier).Fixes rings)
    (orderly : Orderly rings (tsoSize capacity)
      ((create capacity false timesource start).after std actions).shared.trace) :
    (flushedAll ((create capacity false timesource start).after std
      actions).shared.trace).Pairwise fun first second => first.timestamp ≤ second.timestamp := by
  obtain ⟨merge, ordered⟩ := after_ordered std capacity large timesource fresh actions fixed orderly
  have sorted := ordered.inOrder.sorted
  rw [ordered.refines.output, List.pairwise_map] at sorted
  exact sorted.imp UInt64.le_iff_toNat_le.mpr

def lateRecordRings (ring : RingId) : RingObj :=
  .made 3 false (ascii (if ring = 0 then "first" else "second"))

/-- Between the two snapshots of the first poll, one record of each ring is committed: the poll
sees the later one only. -/
def lateRecordRun : List Action :=
  [.client (.addNamed 0), .client (.markDirty 0), .client (.addNamed 1), .client (.markDirty 1),
    .client (.begin 1 { Post.zeroRecord 256 with timestamp := 5 }), .client (.finish 1)] ++
    List.replicate 3 (.engine true) ++
  [.client (.begin 0 { Post.zeroRecord 256 with timestamp := 6 }), .client (.finish 0),
    .client (.begin 1 { Post.zeroRecord 256 with timestamp := 7 }), .client (.finish 1)] ++
    List.replicate 52 (.engine true)

theorem flushed_in_order_late_record :
    (flushedAll ((create 32 false 0 lateRecordRings).after .insertion
      lateRecordRun).shared.trace).map (·.timestamp) = [5, 6, 7] ∧
    (flushedAll ((create 32 false 0 lateRecordRings).after .insertion
      lateRecordRun).shared.trace).Pairwise fun first second =>
        first.timestamp ≤ second.timestamp := by
  have fixed : ∀ earlier ∈ lateRecordRun.inits,
      ((create 32 false 0 lateRecordRings).after .insertion earlier).Fixes {0, 1} := by
    decide +kernel
  refine ⟨by decide +kernel, ?_⟩
  refine flushed_in_order .insertion 32 (by decide) 0 lateRecordRings
    (fun _ => RingObj.made_fresh ⟨2, rfl⟩ _ _) {0, 1} lateRecordRun
    (fun earlier inside => fixed earlier ((List.mem_inits earlier lateRecordRun).mpr inside))
    ⟨?_, ?_, light_of_few ?_, ?_⟩
  all_goals decide +kernel

end Engine

end Hogl.Polling
