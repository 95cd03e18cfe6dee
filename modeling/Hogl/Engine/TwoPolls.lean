import Hogl.Engine.Merging

namespace Hogl.Polling

open Hogl.Data Hogl.Ring

/-! # Two polls

What a poll scans and does not hand over stays within the reserve, and the
next poll flushes all of it, even if the TSO buffer fills up on the way. -/

/-- Not a commit to another ring. -/
def Event.commitsTo (ring : RingId) : Event → Bool
  | .committed owner _ => owner == ring
  | _ => true

theorem committedTo_elsewhere {ring other : RingId} {trace : List Event}
    (only : ∀ event ∈ trace, event.commitsTo ring) (different : other ≠ ring) :
    committedTo other trace = [] := by
  apply committedTo_silent
  rintro event member record rfl
  exact different (beq_iff_eq.mp (only _ member))

/-- A post to ring 0. -/
def postAt (timestamp : UInt64) : List Action :=
  [.client (.begin 0 { Post.zeroRecord 256 with timestamp }), .client (.finish 0)]

namespace Engine

variable {engine next start : Engine} {merge after : Merge RingId Nat} {move : Move RingId}
  {rings : Finset RingId} {size : Nat} {std : StdSort}

/-- The records that the engine thread reads in a run, oldest first. -/
def scanned (std : StdSort) (start : Engine) : List Action → List (RingId × Record)
  | [] => []
  | action :: rest => start.readBy action ++ scanned std (start.act std action) rest

def pollCount (engine : Engine) : Nat := engine.shared.trace.count .polled

/-- Outside of the rebuild of the index, it has these rings. -/
def Scans (rings : Finset RingId) (engine : Engine) : Prop :=
  engine.pc = .idle ∨ engine.pc = .rebuild ∨ engine.Lists rings

instance (engine : Engine) (rings : Finset RingId) : Decidable (engine.Scans rings) :=
  inferInstanceAs (Decidable (_ ∨ _ ∨ _))

theorem after_concat (std : StdSort) (start : Engine) (earlier : List Action) (last : Action) :
    start.after std (earlier ++ [last]) = (start.after std earlier).act std last :=
  runs_concat _ _ _ _

theorem after_append (std : StdSort) (start : Engine) (first second : List Action) :
    start.after std (first ++ second) = (start.after std first).after std second :=
  List.foldl_append

theorem scanned_concat (std : StdSort) (start : Engine) (earlier : List Action) (last : Action) :
    scanned std start (earlier ++ [last]) =
      scanned std start earlier ++ (start.after std earlier).readBy last := by
  induction earlier generalizing start with
  | nil => exact List.append_nil _
  | cons action rest ih =>
      rw [List.cons_append, scanned, scanned, ih, List.append_assoc]
      rfl

/-- The assumptions on a state that a poll needs. -/
structure Ready (size : Nat) (engine : Engine) : Prop where
  sound : engine.Sound
  roomy : engine.Roomy size
  enabled : engine.tsoDisabled = false
  delivering : ∀ ring, engine.Delivering ring
  rising : ∀ ring, Rising (engine.shared.committed ring)

theorem Sound.committed_prefix (sound : engine.Sound) (std : StdSort) (actions : List Action)
    (ring : RingId) :
    engine.shared.committed ring <+: (engine.after std actions).shared.committed ring :=
  (sound.after_trace std actions).filterMap _

theorem Sound.handed_le (sound : engine.Sound) (std : StdSort) (actions : List Action)
    (ring : RingId) : engine.handed ring ≤ (engine.after std actions).handed ring :=
  ((sound.after_trace std actions).filterMap _).length_le

theorem Sound.pollCount_le (sound : engine.Sound) (std : StdSort) (actions : List Action) :
    engine.pollCount ≤ (engine.after std actions).pollCount :=
  (sound.after_trace std actions).sublist.count_le _

theorem after_ready (std : StdSort) (capacity : UInt32) (large : 2 ≤ tsoSize capacity)
    (timesource : UInt64) {made : RingId → RingObj} (fresh : ∀ ring, (made ring).Fresh)
    (actions later : List Action)
    (rising : ∀ ring, Rising (((create capacity false timesource made).after std
      (actions ++ later)).shared.committed ring)) :
    ((create capacity false timesource made).after std actions).Ready (tsoSize capacity) := by
  have created := create_sound capacity false timesource fresh
  have sound := created.after std actions
  have before (ring : RingId) :
      Rising (((create capacity false timesource made).after std actions).shared.committed ring) := by
    have late := rising ring
    rw [after_append] at late
    exact late.of_prefix (sound.committed_prefix std later ring)
  exact ⟨sound, after_roomy std capacity timesource fresh large actions, created.after_mode actions,
    fun ring => (after_delivering std capacity false timesource fresh actions
      ((before ring).climbing _)).1, before⟩

theorem Ready.advance (ready : engine.Ready size) (refines : Refines engine merge)
    (faithful : Merge.Faithful rings merge) (action : Action) :
    ∃ after move, Advanced std size engine action merge after move :=
  refines.act std action faithful ready.sound ready.roomy ready.enabled
    (fun ring _ _ => ready.delivering ring) (fun ring _ _ => ready.rising ring)

theorem Ready.keys (ready : engine.Ready size) (refines : Refines engine merge) (ring : RingId) :
    (merge.queued ring).Pairwise (· ≤ ·) := by
  rw [refines.queued]
  exact (ready.rising ring).keys

theorem Advanced.pollCount {action : Action}
    (advanced : Advanced std size engine action merge after move) :
    (engine.act std action).pollCount = engine.pollCount + if move = .begun then 1 else 0 := by
  obtain ⟨events, trace, logged⟩ := advanced.logged
  rw [Engine.pollCount, trace, List.count_append, Engine.pollCount]
  cases move with
  | begun =>
      rw [show events = [.polled] from logged]
      rfl
  | opened =>
      obtain ⟨ring, rfl⟩ := logged
      rfl
  | taken | rested | other => rw [List.count_eq_zero.mpr logged, if_neg (by simp)]

/-- Every reachable state is one of a faithful merge. -/
theorem after_merged (std : StdSort) (capacity : UInt32) (large : 2 ≤ tsoSize capacity)
    (timesource : UInt64) {made : RingId → RingObj} (fresh : ∀ ring, (made ring).Fresh)
    (actions later : List Action)
    (rising : ∀ ring, Rising (((create capacity false timesource made).after std
      (actions ++ later)).shared.committed ring)) :
    ∃ merge sources, Refines ((create capacity false timesource made).after std actions) merge ∧
      Merge.Faithful sources merge := by
  induction actions using List.reverseRecOn generalizing later with
  | nil => exact ⟨.start, ∅, create_refines capacity false timesource made, .start ∅⟩
  | append_singleton earlier last ih =>
      rw [List.append_assoc] at rising
      have ready := after_ready std capacity large timesource fresh earlier _ rising
      obtain ⟨merge, sources, refines, faithful⟩ := ih _ rising
      obtain ⟨after, move, advanced⟩ := @Ready.advance _ merge sources _ std ready refines faithful last
      obtain ⟨more, larger, inside⟩ : ∃ more, sources ⊆ more ∧
          ∀ ring, move = .taken ring → ring ∈ more := by
        cases move with
        | taken ring =>
            refine ⟨insert ring sources, Finset.subset_insert _ _, fun other same => ?_⟩
            cases same
            exact Finset.mem_insert_self _ _
        | _ => exact ⟨sources, Finset.Subset.refl _, fun _ same => by cases same⟩
      rw [after_concat]
      exact ⟨after, more, advanced.refines, (faithful.mono larger).step advanced.step
        (fun ring _ => ready.keys refines ring) inside⟩

namespace Scans

variable (scans : engine.Scans rings) (refines : Refines engine merge)

include scans refines

theorem lists (busy : merge.stage ≠ .resting) (opened : merge.stage ≠ .reading [] none) :
    engine.Lists rings := by
  have shows := refines.shows
  rw [Shows] at shows
  rcases scans with place | place | same
  · rw [place] at shows
    exact absurd shows busy
  · rw [place] at shows
    exact absurd shows opened
  · exact same

theorem known (step : Merge.Step size (size / 8) merge move after)
    (taken : ∀ ring, move = .taken ring → ∃ i, engine.ringAt i = some ring) {ring : RingId}
    (takes : move = .taken ring) : ring ∈ rings := by
  subst takes
  obtain ⟨closed, limit, stage⟩ := step.taken_stage
  exact (scans.lists refines (by simp [stage]) (by simp [stage]) ring).mpr (taken ring rfl)

theorem complete {left : Nat} {closed : List RingId} (stage : merge.stage = .flushing left closed none)
    (ring : RingId) (inside : ring ∈ rings) : ring ∈ closed := by
  obtain ⟨i, found⟩ := (scans.lists refines (by simp [stage]) (by simp [stage]) ring).mp inside
  exact refines.shows.settled stage (i + 1) i (Nat.lt_succ_self i) ring found

end Scans

/-! ## What the first poll scans -/

/-- The scanned records are those from the start up to some positions. -/
def Seen (start engine : Engine) (scans : List (RingId × Record)) (bound : RingId → Nat) : Prop :=
  ∀ ring record, (ring, record) ∈ scans ↔ ∃ position, start.handed ring ≤ position ∧
    position < bound ring ∧ (engine.shared.committed ring)[position]? = some record

theorem getElem?_grown {α : Type} {early late : List α} {position : Nat}
    (earlier : early <+: late) (below : position < early.length) :
    late[position]? = early[position]? := by
  obtain ⟨rest, rfl⟩ := earlier
  exact List.getElem?_append_left below

theorem Seen.step {scans more : List (RingId × Record)} {bound bound' : RingId → Nat}
    (seen : Seen start engine scans bound) (lower : ∀ ring, start.handed ring ≤ bound ring)
    (upper : ∀ ring, bound ring ≤ (engine.shared.committed ring).length)
    (grown : ∀ ring, engine.shared.committed ring <+: next.shared.committed ring)
    (bounds : ∀ ring, bound' ring = bound ring + if move = .taken ring then 1 else 0)
    (read : ∀ ring record, (ring, record) ∈ more ↔
      move = .taken ring ∧ (engine.shared.committed ring)[bound ring]? = some record)
    (inside : ∀ ring, move = .taken ring → bound ring < (engine.shared.committed ring).length) :
    Seen start next (scans ++ more) bound' := by
  intro ring record
  have least := lower ring
  have most := upper ring
  rw [List.mem_append, seen, read, bounds]
  constructor
  · rintro (⟨position, above, below, found⟩ | ⟨takes, found⟩)
    · refine ⟨position, above, by omega, ?_⟩
      rw [getElem?_grown (grown ring) (by omega), found]
    · refine ⟨bound ring, least, by rw [if_pos takes]; omega, ?_⟩
      rw [getElem?_grown (grown ring) (inside ring takes), found]
  · rintro ⟨position, above, below, found⟩
    rcases Nat.lt_or_ge position (bound ring) with old | new
    · rw [getElem?_grown (grown ring) (by omega)] at found
      exact .inl ⟨position, above, old, found⟩
    · split at below
      · rename_i takes
        obtain rfl : position = bound ring := by omega
        rw [getElem?_grown (grown ring) (inside ring takes)] at found
        exact .inr ⟨takes, found⟩
      · omega

inductive FirstPhase (rings : Finset RingId) (size : Nat) (start engine : Engine)
    (merge : Merge RingId Nat) (bound : RingId → Nat) : Prop where
  | waiting (resting : merge.stage = .resting) (none : engine.pollCount = start.pollCount)
      (covers : Merge.Covers (fun ring => (start.shared.committed ring).length) merge)
      (far : ∀ ring, bound ring = merge.reach ring)
  | running (busy : merge.stage ≠ .resting) (one : engine.pollCount = start.pollCount + 1)
      (covers : Merge.Covers (fun ring => (start.shared.committed ring).length) merge)
      (held : Merge.Held (size / 8) merge) (far : ∀ ring, bound ring = merge.reach ring)
  | finished (resting : merge.stage = .resting) (one : engine.pollCount = start.pollCount + 1)
      (drains : Merge.Drains rings (size / 8) bound merge)
      (all : ∀ ring ∈ rings, (start.shared.committed ring).length ≤ bound ring)

structure FirstPoll (rings : Finset RingId) (size : Nat) (start engine : Engine)
    (scans : List (RingId × Record)) (merge : Merge RingId Nat) (bound : RingId → Nat) : Prop where
  refines : Refines engine merge
  faithful : Merge.Faithful rings merge
  seen : Seen start engine scans bound
  lower : ∀ ring, start.handed ring ≤ bound ring
  upper : ∀ ring, bound ring ≤ (engine.shared.committed ring).length
  outside : ∀ ring, ring ∉ rings → bound ring = start.handed ring
  phase : FirstPhase rings size start engine merge bound

/-- How far the first poll has read after a step. -/
theorem FirstPhase.step {bound : RingId → Nat}
    (phase : FirstPhase rings size start engine merge bound) (refines : Refines engine merge)
    (faithful : Merge.Faithful rings merge) {action : Action}
    (advanced : Advanced std size engine action merge after move) (scans : engine.Scans rings)
    (most : (engine.act std action).pollCount ≤ start.pollCount + 1) :
    FirstPhase rings size start (engine.act std action) after
        (fun ring => bound ring + if move = .taken ring then 1 else 0) ∧
      ∀ ring, move = .taken ring → bound ring = merge.reach ring := by
  have polls := advanced.pollCount
  cases phase with
  | waiting resting none covers far =>
      refine ⟨?_, fun ring _ => far ring⟩
      have reach := advanced.step.reach
      have covers := covers.step advanced.step
      rcases advanced.step.of_resting resting with ⟨rfl, rfl⟩ | ⟨rfl, more, longer, rfl⟩
      · refine .running (by simp) (by rw [polls, none]; rfl) covers ?_ ?_
        · exact fun left closed stage => by cases stage
        · intro ring
          rw [reach (by simp), far]
      · refine .waiting resting (by rw [polls, none]; rfl) covers ?_
        intro ring
        rw [reach (by simp), far]
  | running busy one covers held far =>
      refine ⟨?_, fun ring _ => far ring⟩
      have notBegun : move ≠ .begun := by
        rintro rfl
        exact busy advanced.step.begun_resting
      rw [if_neg notBegun] at polls
      by_cases rests : move = .rested
      · subst rests
        have bounds : (fun ring => bound ring + if Move.rested = .taken ring then 1 else 0) =
            merge.reach := by
          funext ring
          rw [if_neg (by simp), far, Nat.add_zero]
        rw [bounds]
        obtain ⟨left, closed, stage, past, settled⟩ := advanced.step.rested_eq
        refine .finished (settled ▸ rfl) (polls.trans one) ?_ fun ring inside => ?_
        · rw [settled]
          exact faithful.drains held stage past
        · apply covers.closed
          rw [stage]
          exact scans.complete refines stage ring inside
      · refine .running (advanced.step.stays_busy rests busy) (polls.trans one)
          (covers.step advanced.step) (held.step advanced.step) fun ring => ?_
        rw [advanced.step.reach rests, far]
  | finished resting one drains all =>
      rcases advanced.step.of_resting resting with ⟨rfl, rfl⟩ | ⟨rfl, more, longer, rfl⟩
      · rw [polls, one, if_pos rfl] at most
        omega
      · refine ⟨.finished resting (by rw [polls, one]; rfl) ?_ ?_, fun ring takes => by cases takes⟩
        · exact drains.grown longer
        · exact all

theorem FirstPoll.step {scans : List (RingId × Record)} {bound : RingId → Nat}
    (first : FirstPoll rings size start engine scans merge bound) (ready : engine.Ready size)
    {action : Action} (advanced : Advanced std size engine action merge after move)
    (indexed : engine.Scans rings) (most : (engine.act std action).pollCount ≤ start.pollCount + 1) :
    FirstPoll rings size start (engine.act std action) (scans ++ engine.readBy action) after
      fun ring => bound ring + if move = .taken ring then 1 else 0 := by
  obtain ⟨phase, far⟩ := first.phase.step first.refines first.faithful advanced indexed most
  have inside (ring : RingId) (takes : move = .taken ring) :
      bound ring < (engine.shared.committed ring).length := by
    have step := advanced.step
    rw [takes] at step
    have read := step.taken_lt
    rwa [← far ring takes, first.refines.queued, List.length_map] at read
  have grown (ring : RingId) :
      engine.shared.committed ring <+: (engine.act std action).shared.committed ring :=
    ready.sound.committed_prefix std [action] ring
  have known (ring : RingId) (takes : move = .taken ring) : ring ∈ rings :=
    indexed.known first.refines advanced.step (fun owner taken => (advanced.taken owner taken).1)
      takes
  refine ⟨advanced.refines, first.faithful.step advanced.step
    (fun ring _ => ready.keys first.refines ring) known, ?_,
    fun ring => (first.lower ring).trans (Nat.le_add_right _ _), fun ring => ?_, fun ring absent => ?_,
    phase⟩
  · refine first.seen.step first.lower first.upper grown (fun _ => rfl) (fun ring record => ?_) inside
    rw [advanced.read]
    refine and_congr_right fun takes => ?_
    rw [far ring takes]
  · have longer := (grown ring).length_le
    have upper := first.upper ring
    split
    · rename_i takes
      have below := inside ring takes
      omega
    · omega
  · rw [if_neg fun takes => absent (known ring takes), Nat.add_zero]
    exact first.outside ring absent

theorem FirstPoll.initial (refines : Refines start merge) (faithful : Merge.Faithful rings merge)
    (resting : merge.stage = .resting) :
    FirstPoll rings size start start [] merge start.handed := by
  have reach (ring : RingId) : merge.reach ring = start.handed ring := by
    rw [Merge.reach, faithful.cleared resting, refines.emitted]
    rfl
  have queued (ring : RingId) :
      (merge.queued ring).length = (start.shared.committed ring).length := by
    rw [refines.queued, List.length_map]
  refine ⟨refines, faithful, fun ring record => ?_, fun _ => Nat.le_refl _, fun ring => ?_,
    fun _ _ => rfl, .waiting resting rfl ⟨fun ring => (queued ring).ge, ?_, ?_⟩ fun ring => (reach ring).symm⟩
  · constructor
    · exact fun none => absurd none List.not_mem_nil
    · rintro ⟨position, above, below, -⟩
      omega
  · rw [← refines.emitted, ← queued]
    exact faithful.bounded ring
  · rw [resting]
    exact List.forall_mem_nil _
  · rw [resting]
    exact fun _ _ none => by cases none

theorem first_poll (actions : List Action)
    (ready : ∀ earlier, earlier <+: actions → (start.after std earlier).Ready size)
    (indexed : ∀ earlier, earlier <+: actions → (start.after std earlier).Scans rings)
    (refines : Refines start merge) (faithful : Merge.Faithful rings merge)
    (resting : merge.stage = .resting)
    (most : (start.after std actions).pollCount ≤ start.pollCount + 1) :
    ∃ merge bound, FirstPoll rings size start (start.after std actions)
      (scanned std start actions) merge bound := by
  induction actions using List.reverseRecOn with
  | nil => exact ⟨merge, start.handed, .initial refines faithful resting⟩
  | append_singleton earlier last ih =>
      have inside := List.prefix_append earlier [last]
      have state := ready earlier inside
      rw [after_concat] at most
      have fewer := (state.sound.pollCount_le std [last]).trans most
      obtain ⟨merge, bound, first⟩ := ih (fun part short => ready part (short.trans inside))
        (fun part short => indexed part (short.trans inside)) fewer
      obtain ⟨after, move, advanced⟩ :=
        @Ready.advance _ merge rings _ std state first.refines first.faithful last
      rw [after_concat, scanned_concat]
      exact ⟨after, _, first.step state advanced (indexed earlier inside) most⟩

/-! ## What the second poll hands over -/

structure SecondPoll (rings : Finset RingId) (size : Nat) (middle engine : Engine)
    (bound : RingId → Nat) (merge : Merge RingId Nat) : Prop where
  refines : Refines engine merge
  faithful : Merge.Faithful rings merge
  phase : merge.behind rings bound = 0 ∨ Merge.Drains rings (size / 8) bound merge ∧
    (merge.stage = .resting → engine.pollCount = middle.pollCount)

theorem SecondPoll.step {middle : Engine} {bound : RingId → Nat}
    (second : SecondPoll rings size middle engine bound merge) (ready : engine.Ready size)
    {action : Action} (advanced : Advanced std size engine action merge after move)
    (indexed : engine.Scans rings) (indexedNext : (engine.act std action).Scans rings)
    (cut : Merge.Cut (· < ·) rings bound merge) :
    SecondPoll rings size middle (engine.act std action) bound after := by
  have known (ring : RingId) (takes : move = .taken ring) : ring ∈ rings :=
    indexed.known second.refines advanced.step (fun owner taken => (advanced.taken owner taken).1)
      takes
  refine ⟨advanced.refines, second.faithful.step advanced.step
    (fun ring _ => ready.keys second.refines ring) known, ?_⟩
  rcases second.phase with none | ⟨drains, early⟩
  · exact .inl (Nat.le_zero.mp (advanced.step.behind_le.trans none.le))
  · by_cases rests : move = .rested
    · subst rests
      exact .inl (drains.rested advanced.step)
    · refine .inr ⟨drains.step second.faithful advanced.step cut known (by omega)
        (fun left closed stage => indexedNext.complete advanced.refines stage) rests, ?_⟩
      intro resting
      by_cases before : merge.stage = .resting
      · rcases advanced.step.of_resting before with ⟨-, rfl⟩ | ⟨rfl, -⟩
        · cases resting
        · exact advanced.pollCount.trans (early before)
      · exact absurd resting (advanced.step.stays_busy rests before)

theorem second_poll {middle : Engine} {bound : RingId → Nat} (actions : List Action)
    (ready : ∀ earlier, earlier <+: actions → (middle.after std earlier).Ready size)
    (indexed : ∀ earlier, earlier <+: actions → (middle.after std earlier).Scans rings)
    (cut : ∀ earlier, earlier <+: actions → ∀ merge, Refines (middle.after std earlier) merge →
      Merge.Cut (· < ·) rings bound merge)
    (second : SecondPoll rings size middle middle bound merge) :
    ∃ merge, SecondPoll rings size middle (middle.after std actions) bound merge := by
  induction actions using List.reverseRecOn with
  | nil => exact ⟨merge, second⟩
  | append_singleton earlier last ih =>
      have inside := List.prefix_append earlier [last]
      have state := ready earlier inside
      obtain ⟨merge, before⟩ := ih (fun part short => ready part (short.trans inside))
        (fun part short => indexed part (short.trans inside))
        (fun part short => cut part (short.trans inside))
      obtain ⟨after, move, advanced⟩ :=
        @Ready.advance _ merge rings _ std state before.refines before.faithful last
      have indexedNext := indexed _ List.prefix_rfl
      rw [after_concat] at indexedNext ⊢
      exact ⟨after, before.step state advanced (indexed earlier inside) indexedNext
        (cut earlier inside merge before.refines)⟩

/-- Every ring is idle between two polls: what was handed over is consumed. -/
theorem Delivering.popped_idle {ring : RingId} (delivering : engine.Delivering ring)
    (sound : engine.Sound) (idle : engine.pc = .idle) :
    engine.shared.popped ring = engine.handed ring := by
  by_cases indexed : ∃ i, engine.ringAt i = some ring
  · obtain ⟨i, found⟩ := indexed
    obtain ⟨entry, read, valid⟩ := ringAt_eq_some.mp found
    have none : entry.lastrec = none := by
      by_contra pending
      have scanned := sound.tracked.recScanned i entry read pending
      rw [idle] at scanned
      exact scanned
    exact delivering.rested i entry read valid none (by rw [idle]; exact fun drains => by cases drains)
  · exact delivering.unindexed fun i found => indexed ⟨i, found⟩

/-- Two polls one after the other, with the clients at work before, between and during them. -/
structure TwoPolls (std : StdSort) (rings : Finset RingId) (start : Engine)
    (first second : List Action) : Prop where
  idle : start.pc = .idle
  between : (start.after std first).pc = .idle
  ended : ((start.after std first).after std second).pc = .idle
  one : (start.after std first).pollCount = start.pollCount + 1
  another : ((start.after std first).after std second).pollCount =
    (start.after std first).pollCount + 1
  fixed : ∀ earlier, earlier <+: first ++ second → (start.after std earlier).Scans rings

theorem Shows.resting (shows : engine.Shows merge) (idle : engine.pc = .idle) :
    merge.stage = .resting := by
  rw [Shows, idle] at shows
  exact shows

/-- What was not scanned up to some positions comes later in time. -/
def Parted (rings : Finset RingId) (start final : Engine) (bound : RingId → Nat) : Prop :=
  ∀ ring ∈ rings, ∀ other ∈ rings, ∀ old new record later, start.handed ring ≤ old →
    old < bound ring → bound other ≤ new → (final.shared.committed ring)[old]? = some record →
    (final.shared.committed other)[new]? = some later → record.timestamp < later.timestamp

theorem Parted.cut {final : Engine} {bound : RingId → Nat} (parted : Parted rings start final bound)
    (refines : Refines engine merge)
    (grown : ∀ ring, engine.shared.committed ring <+: final.shared.committed ring)
    (passed : ∀ ring, start.handed ring ≤ engine.handed ring) :
    Merge.Cut (· < ·) rings bound merge := by
  intro ring inside other also old new key behind above below beyond read readLater
  rw [refines.queued, List.getElem?_map, Option.map_eq_some_iff] at read readLater
  rw [refines.emitted] at above
  obtain ⟨record, found, rfl⟩ := read
  obtain ⟨later, foundLater, rfl⟩ := readLater
  have whole {owner : RingId} {position : Nat} {item : Record}
      (here : (engine.shared.committed owner)[position]? = some item) :
      (final.shared.committed owner)[position]? = some item := by
    rw [getElem?_grown (grown owner) (List.getElem?_eq_some_iff.mp here).1, here]
  exact UInt64.lt_iff_toNat_lt.mp (parted ring inside other also old new record later
    ((passed ring).trans above) below beyond (whole found) (whole foundLater))

theorem Seen.parted {middle final : Engine} {scans : List (RingId × Record)}
    {bound : RingId → Nat} (seen : Seen start middle scans bound)
    (lower : ∀ ring, start.handed ring ≤ bound ring)
    (upper : ∀ ring, bound ring ≤ (middle.shared.committed ring).length)
    (grown : ∀ ring, middle.shared.committed ring <+: final.shared.committed ring)
    (rising : ∀ ring, Rising (final.shared.committed ring))
    (later : ∀ item ∈ scans, ∀ other ∈ rings,
      ∀ behind ∈ (final.shared.committed other).drop (start.handed other), (other, behind) ∉ scans →
      item.2.timestamp < behind.timestamp) : Parted rings start final bound := by
  intro ring _ other also old new record item above below beyond read readLater
  have scans : (ring, record) ∈ scans := by
    rw [getElem?_grown (grown ring) (below.trans_le (upper ring))] at read
    exact (seen ring record).mpr ⟨old, above, below, read⟩
  refine later (ring, record) scans other also item ?_ fun also => ?_
  · have place : start.handed other + (new - start.handed other) = new := by
      have least := lower other
      omega
    rw [← place, ← List.getElem?_drop] at readLater
    exact List.mem_of_getElem? readLater
  · -- The timestamps of a ring tell its records apart.
    obtain ⟨position, -, short, same⟩ := (seen other item).mp also
    obtain ⟨inside, whole⟩ := List.getElem?_eq_some_iff.mp same
    rw [← getElem?_grown (grown other) inside] at same
    obtain ⟨first, atFirst⟩ := List.getElem?_eq_some_iff.mp same
    obtain ⟨second, atSecond⟩ := List.getElem?_eq_some_iff.mp readLater
    have less := List.pairwise_iff_getElem.mp (rising other).increasing position new first second
      (by omega)
    rw [atFirst, atSecond, UInt64.lt_iff_toNat_lt] at less
    omega

/-- If nothing is committed, all that is left in a ring is scanned. -/
theorem Seen.whole {middle final : Engine} {scans : List (RingId × Record)} {bound : RingId → Nat}
    (seen : Seen start middle scans bound)
    (upper : ∀ ring, bound ring ≤ (middle.shared.committed ring).length)
    (grown : ∀ ring, middle.shared.committed ring <+: final.shared.committed ring) {ring : RingId}
    (still : final.shared.committed ring = start.shared.committed ring)
    (all : (start.shared.committed ring).length ≤ bound ring) {item : Record}
    (member : item ∈ (final.shared.committed ring).drop (start.handed ring)) :
    (ring, item) ∈ scans := by
  obtain ⟨offset, read⟩ := List.getElem?_of_mem member
  rw [List.getElem?_drop] at read
  have below := (still ▸ (List.getElem?_eq_some_iff.mp read).1).trans_le all
  rw [getElem?_grown (grown ring) (below.trans_le (upper ring))] at read
  exact (seen ring item).mpr ⟨_, Nat.le_add_right _ _, below, read⟩

theorem two_polls_reach (first second : List Action) (two : TwoPolls std rings start first second)
    (ready : ∀ earlier, earlier <+: first ++ second → (start.after std earlier).Ready size)
    (refines : Refines start merge) (faithful : Merge.Faithful rings merge) :
    ∃ bound, Seen start (start.after std first) (scanned std start first) bound ∧
      (∀ ring, start.handed ring ≤ bound ring) ∧
      (∀ ring, bound ring ≤ ((start.after std first).shared.committed ring).length) ∧
      (∀ ring, ring ∉ rings → bound ring = start.handed ring) ∧
      (∀ ring ∈ rings, (start.shared.committed ring).length ≤ bound ring) ∧
      (Parted rings start ((start.after std first).after std second) bound →
        ∀ ring ∈ rings, bound ring ≤ ((start.after std first).after std second).handed ring) := by
  have whole := List.prefix_append first second
  have resting := refines.shows.resting two.idle
  obtain ⟨merge, bound, polled⟩ := @first_poll start merge rings size std first
    (fun part short => ready part (short.trans whole))
    (fun part short => two.fixed part (short.trans whole)) refines faithful resting two.one.le
  have restingNext := polled.refines.shows.resting two.between
  cases polled.phase with
  | waiting _ none =>
      have one := two.one
      omega
  | running busy => exact absurd restingNext busy
  | finished _ _ drains all =>
      refine ⟨bound, polled.seen, polled.lower, polled.upper, polled.outside, all,
        fun parted ring inside => ?_⟩
      have during (part : List Action) (short : part <+: second) :
          first ++ part <+: first ++ second := (List.prefix_append_right_inj first).mpr short
      have readyNext (part : List Action) (short : part <+: second) :
          ((start.after std first).after std part).Ready size := by
        rw [← after_append]
        exact ready _ (during part short)
      have sound := (ready [] (List.nil_prefix)).sound
      have cut (part : List Action) (short : part <+: second) (other : Merge RingId Nat)
          (shown : Refines ((start.after std first).after std part) other) :
          Merge.Cut (· < ·) rings bound other := by
        obtain ⟨rest, rfl⟩ := short
        refine parted.cut shown (fun owner => ?_) fun owner => ?_
        · rw [after_append std _ part rest]
          exact (readyNext part (List.prefix_append _ _)).sound.committed_prefix std rest owner
        · rw [← after_append]
          exact sound.handed_le std (first ++ part) owner
      obtain ⟨last, polledNext⟩ := @second_poll merge rings size std (start.after std first) bound
        second readyNext
        (fun part short => by
          rw [← after_append]
          exact two.fixed _ (during part short)) cut
        ⟨polled.refines, polled.faithful, .inr ⟨drains, fun _ => rfl⟩⟩
      have none : last.behind rings bound = 0 := by
        rcases polledNext.phase with none | ⟨-, early⟩
        · exact none
        · have same := early (polledNext.refines.shows.resting two.ended)
          have another := two.another
          omega
      have each := Finset.sum_eq_zero_iff.mp none ring inside
      rw [polledNext.refines.emitted] at each
      exact Nat.sub_eq_zero_iff_le.mp each

/-- Two polls in a row hand over all that the first of them scanned, if what
it did not scan comes later in time, and empty the rings if nothing is
committed. -/
theorem two_polls_deliver (std : StdSort) (capacity : UInt32) (large : 2 ≤ tsoSize capacity)
    (timesource : UInt64) (made : RingId → RingObj) (fresh : ∀ ring, (made ring).Fresh)
    (rings : Finset RingId) (setup first second : List Action)
    (two : TwoPolls std rings ((create capacity false timesource made).after std setup) first second)
    (rising : ∀ ring, Rising (((((create capacity false timesource made).after std setup).after std
      first).after std second).shared.committed ring)) :
    let start := (create capacity false timesource made).after std setup
    let final := (start.after std first).after std second
    ((∀ item ∈ scanned std start first, ∀ other ∈ rings,
        ∀ later ∈ (final.shared.committed other).drop (start.handed other),
        (other, later) ∉ scanned std start first → item.2.timestamp < later.timestamp) →
      ∀ item ∈ scanned std start first, item.2 ∈ final.shared.flushed item.1) ∧
    ((∀ ring ∈ rings, final.shared.committed ring = start.shared.committed ring) →
      ∀ ring ∈ rings, (final.obj ring).ring.empty = true) := by
  intro start final
  have ready (part : List Action) (short : part <+: first ++ second) :
      (start.after std part).Ready (tsoSize capacity) := by
    obtain ⟨rest, split⟩ := short
    rw [← after_append]
    refine after_ready std capacity large timesource fresh _ rest fun ring => ?_
    rw [List.append_assoc, split, after_append, after_append]
    exact rising ring
  obtain ⟨merge, sources, refines, faithful⟩ := after_merged std capacity large timesource fresh setup
    (first ++ second) (by rw [after_append, after_append]; exact rising)
  obtain ⟨bound, seen, lower, upper, outside, all, handed⟩ := two_polls_reach first second two ready refines
    (faithful.at_rest (refines.shows.resting two.idle))
  have last : final.Ready (tsoSize capacity) := by
    have state := ready (first ++ second) List.prefix_rfl
    rwa [after_append] at state
  have grown (ring : RingId) :
      (start.after std first).shared.committed ring <+: final.shared.committed ring :=
    (ready first (List.prefix_append _ _)).sound.committed_prefix std second ring
  have found {ring : RingId} {position : Nat} {record : Record}
      (read : ((start.after std first).shared.committed ring)[position]? = some record) :
      (final.shared.committed ring)[position]? = some record := by
    rw [getElem?_grown (grown ring) (List.getElem?_eq_some_iff.mp read).1, read]
  constructor
  · rintro later ⟨ring, record⟩ scans
    obtain ⟨position, above, below, read⟩ := (seen ring record).mp scans
    have inside : ring ∈ rings := by
      by_contra absent
      rw [outside ring absent] at below
      omega
    have parted := seen.parted lower upper grown rising later
    have reached := below.trans_le (handed parted ring inside)
    obtain ⟨rest, split⟩ := (last.delivering ring).delivered
    refine List.mem_of_getElem? (i := position) ?_
    rw [← found read, ← split, List.getElem?_append_left reached]
  · intro still ring inside
    have parted : Parted rings start final bound :=
      seen.parted lower upper grown rising fun _ _ other also item member absent =>
        absurd (seen.whole upper grown (still other also) (all other also) member) absent
    have reached := (all ring inside).trans (handed parted ring inside)
    have consumed := (last.delivering ring).popped_idle last.sound two.ended
    refine (last.sound.tracked.spanned ring).empty_iff.mpr ?_
    rw [consumed]
    exact Nat.le_antisymm (last.delivering ring).handed_le ((still ring inside) ▸ reached)

/-- Eight records fill the buffer in the first poll, which then keeps the last of them back. -/
def reserveRun : List Action :=
  [.client (.addNamed 0), .client (.markDirty 0)] ++ [1, 2, 3, 4, 5, 6, 7, 8].flatMap postAt

theorem two_polls_deliver_reserve :
    let start := (create 8 false 0 fun _ => .made 15 false (ascii "ring")).after .insertion reserveRun
    let first := List.replicate 26 (.engine true)
    let second := postAt 9 ++ List.replicate 12 (.engine true)
    (scanned .insertion start first).map (·.2.timestamp) = [1, 2, 3, 4, 5, 6, 7, 8] ∧
    ((start.after .insertion first).shared.flushed 0).map (·.timestamp) = [1, 2, 3, 4, 5, 6, 7] ∧
    ∀ item ∈ scanned .insertion start first,
      item.2 ∈ ((start.after .insertion first).after .insertion second).shared.flushed item.1 := by
  intro start first second
  have fixed : ∀ earlier ∈ (first ++ second).inits, (start.after .insertion earlier).Scans {0} := by
    decide +kernel
  have only : ∀ event ∈ ((start.after .insertion first).after .insertion second).shared.trace,
      event.commitsTo 0 := by
    decide +kernel
  have two : TwoPolls .insertion {0} start first second :=
    ⟨by decide +kernel, by decide +kernel, by decide +kernel, by decide +kernel, by decide +kernel,
      fun earlier inside => fixed earlier ((List.mem_inits earlier (first ++ second)).mpr inside)⟩
  refine ⟨by decide +kernel, by decide +kernel, ?_⟩
  refine (two_polls_deliver .insertion 8 (by decide) 0 (fun _ => .made 15 false (ascii "ring"))
    (fun _ => RingObj.made_fresh ⟨4, rfl⟩ _ _) {0} reserveRun first second two fun ring => ?_).1 ?_
  · by_cases same : ring = 0
    · subst same
      decide +kernel
    · rw [Shared.committed, committedTo_elsewhere only same]
      exact ⟨List.forall_mem_nil _, .nil⟩
  · decide +kernel

end Engine

end Hogl.Polling
