import Hogl.Data.Merging

namespace Hogl.Data.Merge

universe u v

variable {ι : Type u} {κ : Type v} [DecidableEq ι] [LinearOrder κ] {merge next : Merge ι κ}
  {sources : Finset ι} {capacity keep : Nat} {move : Move ι} {mark : ι → Nat}

/-! # Rounds of a merge

A mark that every source has reached when a round settles tells the items that
the round is sure to have read. -/

structure Covers (mark : ι → Nat) (merge : Merge ι κ) : Prop where
  queued : ∀ source, mark source ≤ (merge.queued source).length
  closed : ∀ source ∈ merge.stage.closed, mark source ≤ merge.reach source
  current : ∀ source limit, merge.stage.current = some (source, limit) → mark source ≤ limit

theorem Covers.step (covers : Covers mark merge) (step : Step capacity keep merge move next) :
    Covers mark next := by
  have reach := step.reach
  cases step with
  | grown longer =>
      exact ⟨fun source => (covers.queued source).trans (longer source).length_le, covers.closed,
        covers.current⟩
  | begun _ | rested _ _ =>
      exact ⟨covers.queued, List.forall_mem_nil _, fun _ _ none => by cases none⟩
  | opened stage =>
      refine ⟨covers.queued, ?_, ?_⟩
      · have closed := covers.closed
        rwa [stage] at closed
      · intro source limit same
        cases same
        exact covers.queued _
  | taken stage _ _ =>
      refine ⟨covers.queued, fun source member => ?_, covers.current⟩
      rw [reach (by simp)]
      exact (covers.closed source member).trans (Nat.le_add_right _ _)
  | filled stage _ _ _ _ _ =>
      have closed := covers.closed
      have current := covers.current
      rw [stage] at closed current
      refine ⟨covers.queued, fun source member => ?_, current⟩
      rw [reach (by simp)]
      exact (closed source member).trans (Nat.le_add_right _ _)
  | closed stage all =>
      have closed := covers.closed
      have current := covers.current
      rw [stage] at closed current
      refine ⟨covers.queued, fun source member => ?_, fun _ _ none => by cases none⟩
      rcases List.mem_cons.mp member with rfl | before
      · exact (current source _ rfl).trans_eq all.symm
      · exact closed source before
  | settled stage _ _ | resumed stage _ | emitted stage _ =>
      have closed := covers.closed
      have current := covers.current
      rw [stage] at closed current
      refine ⟨covers.queued, fun source member => ?_, current⟩
      rw [reach (by simp)]
      exact closed source member

/-- Old items precede the new ones. -/
def Cut (before : κ → κ → Prop) (sources : Finset ι) (mark : ι → Nat) (merge : Merge ι κ) : Prop :=
  ∀ source ∈ sources, ∀ other ∈ sources, ∀ old new key later, merge.emitted source ≤ old →
    old < mark source → mark other ≤ new → (merge.queued source)[old]? = some key →
    (merge.queued other)[new]? = some later → before key later

theorem Faithful.first_least (faithful : Faithful sources merge) {left : Nat} {closed : List ι}
    {current : Option (ι × Nat)} {source : ι} {key : κ} {rest : List (ι × κ)}
    (stage : merge.stage = .flushing (left + 1) closed current)
    (first : merge.buffer = (source, key) :: rest) {item : ι × κ} (member : item ∈ merge.buffer) :
    key ≤ item.2 := by
  have sorted := faithful.sorted left closed current stage
  rw [first] at sorted member
  rcases List.mem_cons.mp member with rfl | later
  · exact le_refl key
  · exact (List.pairwise_cons.mp sorted).1 item later

/-! ## Order

While few items are queued between the first and the last opening of a round,
and the buffer does not fill up, the output is sorted. -/

structure InOrder (sources : Finset ι) (merge : Merge ι κ) : Prop where
  sorted : merge.output.Pairwise (· ≤ ·)
  ahead : ∀ key ∈ merge.output, ∀ source ∈ sources, ∀ position later,
    merge.emitted source ≤ position → (merge.queued source)[position]? = some later → key ≤ later

/-- While old items are in the buffer, the first of all items precedes what
was not emitted. -/
theorem Faithful.first_le (faithful : Faithful sources merge) (cut : Cut (· ≤ ·) sources mark merge)
    {left : Nat} {closed : List ι} {current : Option (ι × Nat)} {source : ι} {key : κ}
    {rest : List (ι × κ)} (stage : merge.stage = .flushing (left + 1) closed current)
    (first : merge.buffer = (source, key) :: rest) (some' : 0 < merge.olds sources mark)
    (reached : ∀ source ∈ sources, mark source ≤ merge.reach source) {other : ι} {position : Nat}
    {later : κ} (inside : other ∈ sources) (lower : merge.emitted other ≤ position)
    (item : (merge.queued other)[position]? = some later) : key ≤ later := by
  rcases Nat.lt_or_ge position (merge.reach other) with read | unread
  · exact faithful.first_least stage first (faithful.buffered lower read item)
  · obtain ⟨owner, known, front, member, frontItem, old⟩ := faithful.old_front some'
    exact (faithful.first_least stage first member).trans (cut owner known other inside _ _ front
      later (Nat.le_refl _) old ((reached other inside).trans unread) frontItem item)

theorem InOrder.step (inOrder : InOrder sources merge) (faithful : Faithful sources merge)
    (step : Step capacity keep merge move next)
    (due : ∀ left closed current, merge.stage = .flushing (left + 1) closed current →
      merge.buffer ≠ [] → ∃ mark, Cut (· ≤ ·) sources mark merge ∧ 0 < merge.olds sources mark ∧
        ∀ source ∈ sources, mark source ≤ merge.reach source)
    (later : ∀ key ∈ merge.output, ∀ source ∈ sources, ∀ position item,
      (merge.queued source).length ≤ position → (next.queued source)[position]? = some item →
      key ≤ item) : InOrder sources next := by
  cases step with
  | @grown more longer =>
      refine ⟨inOrder.sorted, fun key member source inside position item lower read => ?_⟩
      rcases Nat.lt_or_ge position (merge.queued source).length with old | new
      · obtain ⟨rest, whole⟩ := longer source
        change (more source)[position]? = some item at read
        rw [← whole, List.getElem?_append_left old] at read
        exact inOrder.ahead key member source inside position item lower read
      · exact later key member source inside position item new read
  | begun _ | opened _ | taken _ _ _ | filled _ _ _ _ _ _ | closed _ _ | settled _ _ _ | resumed _ _
  | rested _ _ => exact ⟨inOrder.sorted, inOrder.ahead⟩
  | @emitted left closed current source key rest stage first =>
      obtain ⟨mark, cut, some', reached⟩ := due left closed current stage (by simp [first])
      obtain ⟨known, item⟩ := faithful.first_item first
      refine ⟨List.pairwise_append.mpr ⟨inOrder.sorted, List.pairwise_singleton _ _, ?_⟩, ?_⟩
      · intro early member last same
        rw [List.mem_singleton.mp same]
        exact inOrder.ahead early member source known _ key (Nat.le_refl _) item
      · intro early member other inside position item lower read
        have least : merge.emitted other ≤ position := by
          refine Nat.le_trans ?_ lower
          by_cases same : other = source
          · subst same
            rw [emit_self]
            exact Nat.le_succ _
          · rw [emit_other same]
        rcases List.mem_append.mp member with old | new
        · exact inOrder.ahead early old other inside position item least read
        · rw [List.mem_singleton.mp new]
          exact faithful.first_le cut stage first some' reached inside least read

/-- The output comes from the sources. -/
def Sourced (sources : Finset ι) (merge : Merge ι κ) : Prop :=
  ∀ key ∈ merge.output, ∃ source ∈ sources, key ∈ merge.queued source

theorem Sourced.step (sourced : Sourced sources merge) (faithful : Faithful sources merge)
    (step : Step capacity keep merge move next) : Sourced sources next := by
  cases step with
  | grown longer =>
      intro key member
      obtain ⟨source, inside, item⟩ := sourced key member
      exact ⟨source, inside, (longer source).subset item⟩
  | begun _ | opened _ | taken _ _ _ | filled _ _ _ _ _ _ | closed _ _ | settled _ _ _ | resumed _ _
  | rested _ _ => exact sourced
  | @emitted left closed current source key rest stage first =>
      intro early member
      rcases List.mem_append.mp member with old | new
      · exact sourced early old
      · rw [List.mem_singleton.mp new]
        obtain ⟨inside, item⟩ := faithful.first_item first
        exact ⟨source, inside, List.mem_of_getElem? item⟩

/-- A round in which the marks are the lengths of the queues at its first opening. -/
structure Paced (sources : Finset ι) (keep : Nat) (mark : ι → Nat) (merge : Merge ι κ) : Prop where
  busy : merge.stage ≠ .resting
  covers : Covers mark merge
  sight : ∃ sight : ι → Nat, (∀ source, merge.reach source ≤ sight source) ∧
    (∀ source limit, merge.stage.current = some (source, limit) → limit ≤ sight source) ∧
    ∑ source ∈ sources, (sight source - mark source) ≤ keep
  leftover : ∀ closed current, merge.stage = .reading closed current →
    merge.leftover ≤ merge.behind sources mark
  due : ∀ left closed current, merge.stage = .flushing left closed current →
    current = none ∧ (merge.buffer = [] ∨ left ≤ merge.olds sources mark)

/-- Nothing was opened in this round. -/
structure Fresh (sources : Finset ι) (merge : Merge ι κ) : Prop where
  empty : merge.buffer = []
  stage : (merge.stage = .resting ∨ merge.stage = .reading [] none) ∧
      merge.leftover ≤ merge.behind sources (fun source => (merge.queued source).length) ∨
    ∃ left closed, merge.stage = .flushing left closed none

theorem Faithful.length_le_behind (faithful : Faithful sources merge) :
    merge.buffer.length ≤ merge.behind sources fun source => (merge.queued source).length := by
  rw [length_eq_sum faithful.known]
  refine Finset.sum_le_sum fun source _ => ?_
  exact (faithful.lanes source).length_le.trans_eq List.length_drop

theorem Fresh.step (fresh : Fresh sources merge) (faithful : Faithful sources merge)
    (step : Step capacity keep merge move next) :
    Fresh sources next ∨
      move = .opened ∧ Paced sources keep (fun source => (merge.queued source).length) next := by
  obtain ⟨empty, waiting | ⟨left, closed, flushing⟩⟩ := fresh
  · obtain ⟨place, leftover⟩ := waiting
    have still {stage : Stage ι} (same : merge.stage = stage) :
        stage = .resting ∨ stage = .reading [] none := same ▸ place
    cases step with
    | grown longer =>
        refine .inl ⟨empty, .inl ⟨place, leftover.trans ?_⟩⟩
        exact Finset.sum_le_sum fun source _ => Nat.sub_le_sub_right (longer source).length_le _
    | begun _ => exact .inl ⟨empty, .inl ⟨.inr rfl, leftover⟩⟩
    | @opened closed source stage =>
        obtain rfl : closed = [] := by
          rcases still stage with other | same
          · cases other
          · cases same
            rfl
        refine .inr ⟨rfl, by simp, ⟨fun _ => Nat.le_refl _, List.forall_mem_nil _, ?_⟩, ?_, ?_, ?_⟩
        · intro source limit same
          cases same
          exact Nat.le_refl _
        · refine ⟨fun source => max (merge.reach source) (merge.queued source).length, ?_, ?_, ?_⟩
          · exact fun source => Nat.le_max_left _ _
          · intro source limit same
            cases same
            exact Nat.le_max_right _ _
          · refine (Finset.sum_eq_zero fun source _ => ?_).trans_le (Nat.zero_le keep)
            dsimp only
            rw [Nat.max_eq_right (faithful.reach_le source), Nat.sub_self]
        · exact fun _ _ _ => leftover
        · intro left closed current flushing
          cases flushing
    | settled _ perm _ =>
        refine .inl ⟨?_, .inr ⟨_, _, rfl⟩⟩
        rw [empty] at perm
        exact perm.eq_nil
    | taken stage _ _ | filled stage _ _ _ _ _ | closed stage _ | emitted stage _
    | resumed stage _ | rested stage _ =>
        rcases still stage with other | other <;> cases other
  · cases step with
    | grown _ => exact .inl ⟨empty, .inr ⟨left, closed, flushing⟩⟩
    | rested _ _ =>
        refine .inl ⟨rfl, .inl ⟨.inl rfl, ?_⟩⟩
        dsimp only
        rw [empty]
        exact Nat.zero_le _
    | emitted _ first =>
        rw [empty] at first
        cases first
    | begun stage | opened stage | taken stage _ _ | filled stage _ _ _ _ _ | closed stage _
    | settled stage _ _ | resumed stage _ =>
        rw [flushing] at stage
        cases stage

theorem Paced.settles (paced : Paced sources keep mark merge) (faithful : Faithful sources merge)
    {closed : List ι} (stage : merge.stage = .reading closed none)
    (complete : ∀ source ∈ sources, source ∈ closed) :
    merge.due keep ≤ merge.olds sources mark := by
  have reached (source : ι) (inside : source ∈ sources) : mark source ≤ merge.reach source := by
    apply paced.covers.closed
    rw [stage]
    exact complete source inside
  obtain ⟨sight, within, -, load⟩ := paced.sight
  have leftover := paced.leftover closed none stage
  have length : merge.buffer.length ≤ keep + merge.behind sources mark := by
    rw [length_eq_sum faithful.known]
    calc ∑ source ∈ sources, (lane source merge.buffer).length
        ≤ ∑ source ∈ sources, ((sight source - mark source) +
            (mark source - merge.emitted source)) := by
          refine Finset.sum_le_sum fun source _ => ?_
          have far := within source
          rw [reach] at far
          omega
      _ = ∑ source ∈ sources, (sight source - mark source) + merge.behind sources mark :=
          Finset.sum_add_distrib
      _ ≤ keep + merge.behind sources mark := Nat.add_le_add_right load _
  rw [Merge.due, olds_eq_behind reached]
  omega

theorem Paced.step (paced : Paced sources keep mark merge) (faithful : Faithful sources merge)
    (step : Step capacity keep merge move next)
    (room : ∀ source, move = .taken source → merge.buffer.length + 1 ≠ capacity)
    (load : move = .opened → ∑ source ∈ sources, ((merge.queued source).length - mark source) ≤ keep)
    (complete : ∀ left closed, next.stage = .flushing left closed none →
      next.buffer = [] ∨ ∀ source ∈ sources, source ∈ closed) :
    Paced sources keep mark next ∨ move = .rested ∧ Fresh sources next := by
  have covers := paced.covers.step step
  have reach := step.reach
  obtain ⟨sight, within, limits, light⟩ := paced.sight
  cases step with
  | grown longer => exact .inl ⟨paced.busy, covers, paced.sight, paced.leftover, paced.due⟩
  | begun stage => exact absurd stage paced.busy
  | opened stage =>
      refine .inl ⟨by simp, covers, ⟨fun source => (merge.queued source).length, ?_, ?_, load rfl⟩,
        fun _ _ _ => paced.leftover _ _ stage, fun _ _ _ same => (by cases same)⟩
      · exact faithful.reach_le
      · intro source limit same
        cases same
        exact Nat.le_refl _
  | @taken closed source limit key stage more item =>
      refine .inl ⟨paced.busy, covers, ⟨sight, fun other => ?_, limits, light⟩, paced.leftover, ?_⟩
      · rw [reach (by simp)]
        split
        · rename_i same
          cases same
          have upper := limits source limit (by rw [stage]; rfl)
          omega
        · exact within other
      · intro left closed current same
        cases stage.symm.trans same
  | filled _ _ _ full _ _ => exact absurd full (room _ rfl)
  | closed stage _ =>
      exact .inl ⟨by simp, covers, ⟨sight, within, fun _ _ same => (by cases same), light⟩,
        fun _ _ _ => paced.leftover _ _ stage, fun _ _ _ same => (by cases same)⟩
  | @settled closed buffer stage perm sorted =>
      refine .inl ⟨by simp, covers, ⟨sight, fun source => ?_, fun _ _ same => (by cases same), light⟩,
        fun _ _ same => (by cases same), ?_⟩
      · rw [reach (by simp)]
        exact within source
      · intro left closed current same
        cases same
        refine ⟨rfl, (complete _ _ rfl).imp_right fun all => ?_⟩
        rw [olds_perm perm]
        exact paced.settles faithful stage all
  | @emitted left closed current source key rest stage first =>
      obtain ⟨none, empty | enough⟩ := paced.due _ _ _ stage
      · rw [empty] at first
        cases first
      · have limits := limits
        rw [stage] at limits
        refine .inl ⟨by simp [emit], covers, ⟨sight, fun other => ?_, limits, light⟩,
          fun _ _ same => (by cases same), ?_⟩
        · rw [reach (by simp)]
          exact within other
        · intro left closed current same
          cases same
          have one := @olds_emit _ _ _ merge sources mark source key rest
            (.flushing left closed current) (faithful.first_item first).1 first
          refine ⟨none, .inr ?_⟩
          split at one <;> omega
  | resumed stage _ =>
      obtain ⟨none, -⟩ := paced.due _ _ _ stage
      cases none
  | rested stage _ => exact .inr ⟨rfl, rfl, .inl ⟨.inl rfl, faithful.length_le_behind⟩⟩

/-! ## Draining

What a round leaves over is emitted by the next one, even if the buffer fills
up on the way. -/

structure Drains (sources : Finset ι) (keep : Nat) (mark : ι → Nat) (merge : Merge ι κ) : Prop where
  covers : Covers mark merge
  few : merge.behind sources mark ≤ keep
  reading : (∀ left closed current, merge.stage ≠ .flushing left closed current) →
    merge.behind sources mark ≤ merge.leftover ∨
      merge.olds sources mark + keep ≤ merge.buffer.length
  flushing : ∀ left closed current, merge.stage = .flushing left closed current →
    merge.olds sources mark ≤ left ∧ (current ≠ none → keep + left ≤ merge.buffer.length)
  complete : ∀ left closed, merge.stage = .flushing left closed none →
    ∀ source ∈ sources, source ∈ closed

theorem Drains.emits (drains : Drains sources keep mark merge) (faithful : Faithful sources merge)
    (cut : Cut (· < ·) sources mark merge) {left : Nat} {closed : List ι}
    {current : Option (ι × Nat)} {source : ι} {key : κ} {rest : List (ι × κ)}
    (stage : merge.stage = .flushing (left + 1) closed current)
    (first : merge.buffer = (source, key) :: rest) :
    (merge.emit source key rest (.flushing left closed current)).olds sources mark ≤ left := by
  obtain ⟨inside, item⟩ := faithful.first_item first
  have one := @olds_emit _ _ _ merge sources mark source key rest
    (.flushing left closed current) inside first
  obtain ⟨few, -⟩ := drains.flushing _ _ _ stage
  split at one
  · omega
  · rename_i new
    -- A new item comes first only if no old one is left.
    have none : ¬ 0 < merge.olds sources mark := by
      intro some'
      obtain ⟨owner, known, front, member, frontItem, old⟩ := faithful.old_front some'
      have less := cut owner known source inside _ _ front key (Nat.le_refl _) old
        (Nat.le_of_not_lt new) frontItem item
      exact absurd (faithful.first_least stage first member) (not_le_of_gt less)
    omega

theorem Drains.step (drains : Drains sources keep mark merge) (faithful : Faithful sources merge)
    (step : Step capacity keep merge move next) (cut : Cut (· < ·) sources mark merge)
    (known : ∀ source, move = .taken source → source ∈ sources) (small : 4 * keep ≤ capacity)
    (complete : ∀ left closed, next.stage = .flushing left closed none →
      ∀ source ∈ sources, source ∈ closed) (working : move ≠ .rested) :
    Drains sources keep mark next := by
  have covers := drains.covers.step step
  have few := drains.few
  have idle {stage : Stage ι} (same : merge.stage = stage)
      (still : ∀ left closed current, stage ≠ .flushing left closed current) :=
    drains.reading (same ▸ still)
  cases step with
  | grown _ => exact ⟨covers, few, drains.reading, drains.flushing, complete⟩
  | begun stage | opened stage | closed stage _ =>
      exact ⟨covers, few, fun _ => idle stage (by simp), fun _ _ _ same => (by cases same),
        complete⟩
  | @taken closed source limit key stage _ _ =>
      have more := @olds_take_le _ _ _ merge sources mark source key (known source rfl)
      refine ⟨covers, few, fun _ => ?_, fun _ _ _ same => ?_, complete⟩
      · rw [take, List.length_append, List.length_singleton, ← take]
        exact (idle stage (by simp)).imp_right fun enough => by omega
      · cases stage.symm.trans same
  | @filled closed source limit key buffer stage _ _ full perm _ =>
      refine ⟨covers, few, fun still => absurd rfl (still _ _ _), ?_, complete⟩
      intro left closed current same
      cases same
      have length := perm.length_eq
      rw [take, List.length_append, List.length_singleton] at length
      refine ⟨olds_le_behind.trans (few.trans ?_), fun _ => ?_⟩
      · omega
      · dsimp only
        omega
  | @settled closed buffer stage perm sorted =>
      refine ⟨covers, few, fun still => absurd rfl (still _ _ _), ?_, complete⟩
      intro left closed current same
      cases same
      have reached (source : ι) (inside : source ∈ sources) : mark source ≤ merge.reach source := by
        apply drains.covers.closed
        rw [stage]
        exact complete _ _ rfl source inside
      refine ⟨?_, fun some' => absurd rfl some'⟩
      rw [olds_perm perm, Merge.due]
      rcases idle stage (by simp) with enough | enough
      · exact (olds_le_behind.trans enough).trans (Nat.le_max_right _ _)
      · exact (Nat.le_sub_of_add_le enough).trans (Nat.le_max_left _ _)
  | @emitted left closed current source key rest stage first =>
      obtain ⟨-, length⟩ := drains.flushing _ _ _ stage
      refine ⟨covers, behind_emit_le.trans few, fun still => absurd rfl (still _ _ _), ?_,
        complete⟩
      intro left closed current same
      cases same
      refine ⟨drains.emits faithful cut stage first, fun some' => ?_⟩
      have enough := length some'
      rw [first, List.length_cons] at enough
      change keep + left ≤ rest.length
      omega
  | @resumed left closed current stage past =>
      obtain ⟨most, length⟩ := drains.flushing _ _ _ stage
      refine ⟨covers, few, fun _ => .inr ?_, fun _ _ _ same => (by cases same), complete⟩
      have enough := length (by simp)
      have none : merge.olds sources mark = 0 := by
        rcases past with rfl | empty
        · exact Nat.le_zero.mp most
        · exact olds_empty empty
      change merge.olds sources mark + keep ≤ merge.buffer.length
      omega
  | rested _ _ => exact absurd rfl working

theorem Drains.rested (drains : Drains sources keep mark merge)
    (step : Step capacity keep merge .rested next) : next.behind sources mark = 0 := by
  cases step with
  | @rested left closed stage past =>
      obtain ⟨most, -⟩ := drains.flushing _ _ _ stage
      have reached (source : ι) (inside : source ∈ sources) : mark source ≤ merge.reach source := by
        apply drains.covers.closed
        rw [stage]
        exact drains.complete _ _ stage source inside
      change merge.behind sources mark = 0
      rw [← olds_eq_behind reached]
      rcases past with rfl | empty
      · exact Nat.le_zero.mp most
      · exact olds_empty empty

theorem Drains.grown {more : ι → List κ} (drains : Drains sources keep mark merge)
    (longer : ∀ source, merge.queued source <+: more source) :
    Drains sources keep mark { merge with queued := more } := by
  have step : Step 0 keep merge .other { merge with queued := more } := .grown longer
  exact ⟨drains.covers.step step, drains.few, drains.reading, drains.flushing, drains.complete⟩

theorem Step.behind_le (step : Step capacity keep merge move next) :
    next.behind sources mark ≤ merge.behind sources mark := by
  cases step with
  | emitted _ _ => exact behind_emit_le
  | grown _ | begun _ | opened _ | taken _ _ _ | filled _ _ _ _ _ _ | closed _ _ | settled _ _ _
  | resumed _ _ | rested _ _ => exact Nat.le_refl _

/-- A round that settles keeps few items back. -/
def Held (keep : Nat) (merge : Merge ι κ) : Prop :=
  ∀ left closed, merge.stage = .flushing left closed none → merge.buffer.length ≤ keep + left

theorem Held.step (held : Held keep merge) (step : Step capacity keep merge move next) :
    Held keep next := by
  intro left closed stage
  cases step with
  | grown _ => exact held left closed stage
  | taken reading _ _ => cases reading.symm.trans stage
  | settled _ perm _ =>
      cases stage
      dsimp only
      rw [perm.length_eq, Merge.due]
      omega
  | emitted flushing first =>
      cases stage
      have most := held _ _ flushing
      rw [first, List.length_cons] at most
      dsimp only [emit]
      omega
  | begun _ | opened _ | filled _ _ _ _ _ _ | closed _ _ | resumed _ _ | rested _ _ => cases stage

/-- The items that a round has read and not emitted are few enough for the next one to drain. -/
theorem Faithful.drains (faithful : Faithful sources merge) (held : Held keep merge) {left : Nat}
    {closed : List ι} (stage : merge.stage = .flushing left closed none)
    (past : left = 0 ∨ merge.buffer = []) :
    Drains sources keep merge.reach { merge with
      leftover := merge.buffer.length
      buffer := []
      stage := .resting } := by
  have behind : merge.behind sources merge.reach = merge.buffer.length := by
    rw [length_eq_sum faithful.known]
    exact Finset.sum_congr rfl fun source _ => Nat.add_sub_cancel_left _ _
  refine ⟨⟨faithful.reach_le, List.forall_mem_nil _, fun _ _ same => (by cases same)⟩, ?_, ?_,
    fun _ _ _ same => (by cases same), fun _ _ same => (by cases same)⟩
  · refine behind.trans_le ?_
    rcases past with rfl | empty
    · exact held 0 closed stage
    · rw [empty]
      exact Nat.zero_le keep
  · exact fun _ => .inl behind.le

end Hogl.Data.Merge
