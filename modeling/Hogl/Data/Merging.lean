import Mathlib.Algebra.BigOperators.Group.Finset.Piecewise
import Mathlib.Algebra.Order.BigOperators.Group.Finset
import Mathlib.Data.List.Pairwise
import Mathlib.Order.Defs.LinearOrder

namespace Hogl.Data

universe u v

/-! # Merging queues by key, with a reserve

Sources queue items with a key each.  In a round the sources are opened one
after another, and what a source has queued when it is opened goes into a
buffer.  At the end of the round the buffer is emitted in the order of the keys,
down to the last `keep` items, or more of it if more were left over by the round
before; what is left over will be read again.  A buffer that fills up in the
middle of a round emits its first half and forgets what was left over.
-/

/-- Where a round stands, with the sources that it has read and the one that
it is reading, up to a position. -/
inductive Stage (ι : Type u) where
  | resting
  | reading (closed : List ι) (current : Option (ι × Nat))
  | flushing (left : Nat) (closed : List ι) (current : Option (ι × Nat))

namespace Stage

variable {ι : Type u}

def closed : Stage ι → List ι
  | .resting => []
  | .reading closed _ | .flushing _ closed _ => closed

def current : Stage ι → Option (ι × Nat)
  | .resting => none
  | .reading _ current | .flushing _ _ current => current

end Stage

structure Merge (ι : Type u) (κ : Type v) where
  /-- All items of a source so far, oldest first. -/
  queued : ι → List κ
  emitted : ι → Nat
  output : List κ
  buffer : List (ι × κ)
  leftover : Nat
  stage : Stage ι

/-- What an observer sees of a step. -/
inductive Move (ι : Type u) where
  | begun
  | opened
  | taken (source : ι)
  | rested
  | other
deriving DecidableEq

namespace Merge

variable {ι : Type u} {κ : Type v} [DecidableEq ι] {merge : Merge ι κ} {sources : Finset ι}

/-- The keys of one source in a buffer. -/
def lane (source : ι) (buffer : List (ι × κ)) : List κ :=
  (buffer.filter fun item => item.1 = source).map (·.2)

/-- The position behind the last item of a source that was read. -/
def reach (merge : Merge ι κ) (source : ι) : Nat :=
  merge.emitted source + (lane source merge.buffer).length

def take (merge : Merge ι κ) (source : ι) (key : κ) : Merge ι κ :=
  { merge with buffer := merge.buffer ++ [(source, key)] }

/-- The state behind the emission of the first item. -/
def emit (merge : Merge ι κ) (source : ι) (key : κ) (rest : List (ι × κ)) (stage : Stage ι) :
    Merge ι κ :=
  { merge with
    emitted := Function.update merge.emitted source (merge.emitted source + 1)
    output := merge.output ++ [key]
    buffer := rest
    stage }

/-- Nothing has happened. -/
def start : Merge ι κ where
  queued _ := []
  emitted _ := 0
  output := []
  buffer := []
  leftover := 0
  stage := .resting

/-- How many items the end of a round asks for. -/
def due (merge : Merge ι κ) (keep : Nat) : Nat := max (merge.buffer.length - keep) merge.leftover

@[simp] theorem emit_self (source : ι) (key : κ) (rest : List (ι × κ)) (stage : Stage ι) :
    (merge.emit source key rest stage).emitted source = merge.emitted source + 1 :=
  Function.update_self _ _ _

theorem emit_other {source other : ι} {key : κ} {rest : List (ι × κ)} {stage : Stage ι}
    (different : other ≠ source) :
    (merge.emit source key rest stage).emitted other = merge.emitted other :=
  Function.update_of_ne different _ _

theorem lane_cons (source : ι) (item : ι × κ) (rest : List (ι × κ)) :
    lane source (item :: rest) =
      if item.1 = source then item.2 :: lane source rest else lane source rest := by
  rw [lane, List.filter_cons]
  by_cases same : item.1 = source
  · rw [if_pos same, if_pos (decide_eq_true same), List.map_cons, lane]
  · rw [if_neg same, if_neg (by simpa using same), lane]

theorem lane_append (source : ι) (first second : List (ι × κ)) :
    lane source (first ++ second) = lane source first ++ lane source second := by
  rw [lane, List.filter_append, List.map_append, lane, lane]

theorem lane_take (source other : ι) (key : κ) :
    lane other (merge.take source key).buffer =
      if source = other then lane other merge.buffer ++ [key] else lane other merge.buffer := by
  rw [take, lane_append, lane_cons]
  split
  · rfl
  · exact List.append_nil _

theorem mem_lane {source : ι} {key : κ} {buffer : List (ι × κ)} :
    key ∈ lane source buffer ↔ (source, key) ∈ buffer := by
  simp [lane]

theorem length_eq_sum {buffer : List (ι × κ)} (known : ∀ item ∈ buffer, item.1 ∈ sources) :
    buffer.length = ∑ source ∈ sources, (lane source buffer).length := by
  induction buffer with
  | nil => exact (Finset.sum_const_zero).symm
  | cons item rest ih =>
      obtain ⟨here, later⟩ := List.forall_mem_cons.mp known
      have split (source : ι) : (lane source (item :: rest)).length =
          (if item.1 = source then 1 else 0) + (lane source rest).length := by
        rw [lane_cons]
        split
        · rw [List.length_cons, Nat.add_comm]
        · rw [Nat.zero_add]
      simp only [split]
      rw [Finset.sum_add_distrib, Finset.sum_ite_eq, if_pos here, ← ih later, List.length_cons,
        Nat.add_comm]

theorem prefix_concat {α : Type u} {items more : List α} {last : α} (earlier : items <+: more)
    (next : more[items.length]? = some last) : items ++ [last] <+: more := by
  obtain ⟨rest, rfl⟩ := earlier
  rw [List.getElem?_append_right (Nat.le_refl _), Nat.sub_self] at next
  cases rest with
  | nil => cases next
  | cons first rest =>
      cases next
      exact ⟨rest, by rw [List.append_assoc, List.singleton_append]⟩

/-- Two sums whose terms differ in one place. -/
theorem sum_except {first second : ι → Nat} {source : ι} (member : source ∈ sources)
    (others : ∀ other, other ≠ source → first other = second other) :
    ∑ other ∈ sources, first other + second source =
      ∑ other ∈ sources, second other + first source := by
  have rest : ∑ other ∈ sources.erase source, first other =
      ∑ other ∈ sources.erase source, second other :=
    Finset.sum_congr rfl fun other inside => others other (Finset.ne_of_mem_erase inside)
  rw [← Finset.add_sum_erase _ _ member, ← Finset.add_sum_erase _ second member, rest]
  omega

section Steps

variable [LinearOrder κ] {next : Merge ι κ} {capacity keep : Nat} {move : Move ι}

def Sorted (items : List (ι × κ)) : Prop := items.Pairwise fun first second => first.2 ≤ second.2

inductive Step (capacity keep : Nat) (merge : Merge ι κ) : Move ι → Merge ι κ → Prop where
  | grown {more : ι → List κ} (longer : ∀ source, merge.queued source <+: more source) :
      Step capacity keep merge .other { merge with queued := more }
  | begun (stage : merge.stage = .resting) :
      Step capacity keep merge .begun { merge with stage := .reading [] none }
  | opened {closed : List ι} {source : ι} (stage : merge.stage = .reading closed none) :
      Step capacity keep merge .opened
        { merge with stage := .reading closed (some (source, (merge.queued source).length)) }
  | taken {closed : List ι} {source : ι} {limit : Nat} {key : κ}
      (stage : merge.stage = .reading closed (some (source, limit)))
      (more : merge.reach source < limit)
      (item : (merge.queued source)[merge.reach source]? = some key) :
      Step capacity keep merge (.taken source) (merge.take source key)
  | filled {closed : List ι} {source : ι} {limit : Nat} {key : κ} {buffer : List (ι × κ)}
      (stage : merge.stage = .reading closed (some (source, limit)))
      (more : merge.reach source < limit)
      (item : (merge.queued source)[merge.reach source]? = some key)
      (full : merge.buffer.length + 1 = capacity)
      (perm : buffer.Perm (merge.take source key).buffer) (sorted : Sorted buffer) :
      Step capacity keep merge (.taken source) { merge with
        buffer
        stage := .flushing (capacity / 2) closed (some (source, limit)) }
  | closed {closed : List ι} {source : ι} {limit : Nat}
      (stage : merge.stage = .reading closed (some (source, limit)))
      (all : merge.reach source = limit) :
      Step capacity keep merge .other { merge with stage := .reading (source :: closed) none }
  | settled {closed : List ι} {buffer : List (ι × κ)} (stage : merge.stage = .reading closed none)
      (perm : buffer.Perm merge.buffer)
      (sorted : Sorted buffer ∨ merge.due keep = 0 ∧ buffer = merge.buffer) :
      Step capacity keep merge .other { merge with
        buffer
        stage := .flushing (merge.due keep) closed none }
  | emitted {left : Nat} {closed : List ι} {current : Option (ι × Nat)} {source : ι} {key : κ}
      {rest : List (ι × κ)} (stage : merge.stage = .flushing (left + 1) closed current)
      (first : merge.buffer = (source, key) :: rest) :
      Step capacity keep merge .other (merge.emit source key rest (.flushing left closed current))
  | resumed {left : Nat} {closed : List ι} {current : ι × Nat}
      (stage : merge.stage = .flushing left closed (some current))
      (past : left = 0 ∨ merge.buffer = []) :
      Step capacity keep merge .other { merge with
        leftover := 0
        stage := .reading closed (some current) }
  | rested {left : Nat} {closed : List ι} (stage : merge.stage = .flushing left closed none)
      (past : left = 0 ∨ merge.buffer = []) :
      Step capacity keep merge .rested { merge with
        leftover := merge.buffer.length
        buffer := []
        stage := .resting }

theorem Step.taken_stage {source : ι} (step : Step capacity keep merge (.taken source) next) :
    ∃ closed limit, merge.stage = .reading closed (some (source, limit)) := by
  cases step with
  | taken stage _ _ | filled stage _ _ _ _ _ => exact ⟨_, _, stage⟩

theorem Step.taken_lt {source : ι} (step : Step capacity keep merge (.taken source) next) :
    merge.reach source < (merge.queued source).length := by
  cases step with
  | taken _ _ item | filled _ _ item _ _ _ => exact (List.getElem?_eq_some_iff.mp item).1

/-- Between two rounds only new items arrive, until the next one begins. -/
theorem Step.of_resting (step : Step capacity keep merge move next)
    (resting : merge.stage = .resting) :
    (move = .begun ∧ next = { merge with stage := .reading [] none }) ∨
    move = .other ∧ ∃ more : ι → List κ, (∀ source, merge.queued source <+: more source) ∧
      next = { merge with queued := more } := by
  cases step with
  | grown longer => exact .inr ⟨rfl, _, longer, rfl⟩
  | begun _ => exact .inl ⟨rfl, rfl⟩
  | opened stage | taken stage _ _ | filled stage _ _ _ _ _ | closed stage _ | settled stage _ _
  | emitted stage _ | resumed stage _ | rested stage _ =>
      rw [resting] at stage
      cases stage

theorem Step.stays_busy (step : Step capacity keep merge move next) (working : move ≠ .rested)
    (busy : merge.stage ≠ .resting) : next.stage ≠ .resting := by
  cases step with
  | grown _ => exact busy
  | taken _ _ _ => exact busy
  | begun _ | opened _ | filled _ _ _ _ _ _ | closed _ _ | settled _ _ _ | emitted _ _
  | resumed _ _ => exact fun same => by cases same
  | rested _ _ => exact absurd rfl working

theorem Step.rested_eq (step : Step capacity keep merge .rested next) : ∃ left closed,
    merge.stage = .flushing left closed none ∧ (left = 0 ∨ merge.buffer = []) ∧
      next = { merge with leftover := merge.buffer.length, buffer := [], stage := .resting } := by
  cases step with
  | rested stage past => exact ⟨_, _, stage, past, rfl⟩

theorem Step.begun_resting (step : Step capacity keep merge .begun next) :
    merge.stage = .resting := by
  cases step with
  | begun stage => exact stage

/-- Sorting leaves the items of a source in place if their keys rise. -/
theorem lane_sorted {source : ι} {before after : List (ι × κ)} (perm : after.Perm before)
    (sorted : Sorted after) (rising : (lane source before).Pairwise (· ≤ ·)) :
    lane source after = lane source before := by
  have same : (lane source after).Perm (lane source before) := (perm.filter _).map _
  have ordered : (lane source after).Pairwise (· ≤ ·) :=
    List.pairwise_map.mpr (List.Pairwise.filter _ sorted)
  exact same.eq_of_pairwise (fun _ _ _ _ less more => le_antisymm less more) ordered rising

/-- The buffer holds the next items of each source in their order. -/
structure Faithful (sources : Finset ι) (merge : Merge ι κ) : Prop where
  bounded : ∀ source, merge.emitted source ≤ (merge.queued source).length
  known : ∀ item ∈ merge.buffer, item.1 ∈ sources
  lanes : ∀ source, lane source merge.buffer <+: (merge.queued source).drop (merge.emitted source)
  sorted : ∀ left closed current, merge.stage = .flushing (left + 1) closed current →
    Sorted merge.buffer
  cleared : merge.stage = .resting → merge.buffer = []

namespace Faithful

theorem start (sources : Finset ι) : Faithful sources (.start : Merge ι κ) :=
  ⟨fun _ => Nat.le_refl 0, List.forall_mem_nil _, fun _ => List.nil_prefix,
    fun _ _ _ same => (by cases same), fun _ => rfl⟩

theorem mono {more : Finset ι} (faithful : Faithful sources merge) (larger : sources ⊆ more) :
    Faithful more merge :=
  ⟨faithful.bounded, fun item member => larger (faithful.known item member), faithful.lanes,
    faithful.sorted, faithful.cleared⟩

/-- Between two rounds the buffer is empty. -/
theorem at_rest {more : Finset ι} (faithful : Faithful sources merge)
    (resting : merge.stage = .resting) : Faithful more merge := by
  refine ⟨faithful.bounded, ?_, faithful.lanes, faithful.sorted, faithful.cleared⟩
  rw [faithful.cleared resting]
  exact List.forall_mem_nil _

theorem reach_le (faithful : Faithful sources merge) (source : ι) :
    merge.reach source ≤ (merge.queued source).length := by
  have bounded := faithful.bounded source
  have short := (faithful.lanes source).length_le
  rw [List.length_drop] at short
  rw [reach]
  omega

theorem rising (faithful : Faithful sources merge)
    (rising : ∀ source ∈ sources, (merge.queued source).Pairwise (· ≤ ·)) (source : ι) :
    (lane source merge.buffer).Pairwise (· ≤ ·) := by
  by_cases inside : source ∈ sources
  · exact (rising source inside).sublist
      ((faithful.lanes source).sublist.trans (List.drop_sublist _ _))
  · have empty : lane source merge.buffer = [] := by
      refine List.eq_nil_iff_forall_not_mem.mpr fun key member => inside ?_
      exact faithful.known _ (mem_lane.mp member)
    rw [empty]
    exact .nil

theorem takes (faithful : Faithful sources merge) {closed : List ι} {current : Option (ι × Nat)}
    {source : ι} {key : κ} (stage : merge.stage = .reading closed current)
    (inside : source ∈ sources) (item : (merge.queued source)[merge.reach source]? = some key) :
    Faithful sources (merge.take source key) := by
  refine ⟨faithful.bounded, ?_, fun other => ?_, ?_, ?_⟩
  · intro other member
    rcases List.mem_append.mp member with old | new
    · exact faithful.known other old
    · rw [List.mem_singleton.mp new]
      exact inside
  · rw [lane_take]
    split
    · rename_i same
      subst same
      refine prefix_concat (faithful.lanes source) ?_
      rw [List.getElem?_drop]
      exact item
    · exact faithful.lanes other
  · intro left closed current flushing
    rw [show (merge.take source key).stage = merge.stage from rfl, stage] at flushing
    cases flushing
  · intro resting
    rw [show (merge.take source key).stage = merge.stage from rfl, stage] at resting
    cases resting

theorem reordered (faithful : Faithful sources merge)
    (rising : ∀ source ∈ sources, (merge.queued source).Pairwise (· ≤ ·)) {left : Nat}
    {closed : List ι} {current : Option (ι × Nat)} {buffer : List (ι × κ)}
    (perm : buffer.Perm merge.buffer) (sorted : Sorted buffer ∨ left = 0 ∧ buffer = merge.buffer) :
    Faithful sources { merge with buffer, stage := .flushing left closed current } := by
  refine ⟨faithful.bounded, ?_, ?_, ?_, ?_⟩
  · exact fun item member => faithful.known item (perm.mem_iff.mp member)
  · intro source
    rcases sorted with sorted | ⟨-, rfl⟩
    · rw [lane_sorted perm sorted (faithful.rising rising source)]
      exact faithful.lanes source
    · exact faithful.lanes source
  · intro left closed current flushing
    cases flushing
    rcases sorted with sorted | ⟨none, -⟩
    · exact sorted
    · cases none
  · intro resting
    cases resting

/-- The first item of the buffer is the next of its source. -/
theorem first_item (faithful : Faithful sources merge) {source : ι} {key : κ}
    {rest : List (ι × κ)}
    (first : merge.buffer = (source, key) :: rest) :
    source ∈ sources ∧ (merge.queued source)[merge.emitted source]? = some key := by
  obtain ⟨later, whole⟩ := faithful.lanes source
  refine ⟨faithful.known _ (first ▸ List.mem_cons_self), ?_⟩
  rw [first, lane_cons, if_pos rfl] at whole
  change (merge.queued source)[merge.emitted source + 0]? = some key
  rw [← List.getElem?_drop, ← whole]
  rfl

theorem emits (faithful : Faithful sources merge) {left : Nat} {closed : List ι}
    {current : Option (ι × Nat)} {source : ι} {key : κ} {rest : List (ι × κ)}
    (stage : merge.stage = .flushing (left + 1) closed current)
    (first : merge.buffer = (source, key) :: rest) :
    Faithful sources (merge.emit source key rest (.flushing left closed current)) := by
  have sorted := faithful.sorted left closed current stage
  rw [first] at sorted
  refine ⟨fun other => ?_, ?_, fun other => ?_, fun _ _ _ _ => sorted.of_cons, ?_⟩
  · by_cases same : other = source
    · subst same
      rw [emit_self]
      exact (List.getElem?_eq_some_iff.mp (faithful.first_item first).2).1
    · rw [emit_other same]
      exact faithful.bounded other
  · exact fun item member => faithful.known item (first ▸ List.mem_cons_of_mem _ member)
  · have lanes := faithful.lanes other
    rw [first, lane_cons] at lanes
    by_cases same : source = other
    · subst same
      rw [if_pos rfl] at lanes
      obtain ⟨later, whole⟩ := lanes
      rw [emit_self, ← List.tail_drop]
      change lane source rest <+: (List.drop (merge.emitted source) (merge.queued source)).tail
      rw [← whole]
      exact ⟨later, rfl⟩
    · rw [if_neg same] at lanes
      rw [emit_other (Ne.symm same)]
      exact lanes
  · intro resting
    cases resting

theorem step (faithful : Faithful sources merge) (step : Step capacity keep merge move next)
    (rising : ∀ source ∈ sources, (merge.queued source).Pairwise (· ≤ ·))
    (inside : ∀ source, move = .taken source → source ∈ sources) : Faithful sources next := by
  cases step with
  | grown longer =>
      exact ⟨fun source => (faithful.bounded source).trans (longer source).length_le,
        faithful.known, fun source => (faithful.lanes source).trans ((longer source).drop _),
        faithful.sorted, faithful.cleared⟩
  | begun | opened _ | closed _ _ | resumed _ _ =>
      refine ⟨faithful.bounded, faithful.known, faithful.lanes, ?_, ?_⟩
      · intro _ _ _ flushing
        cases flushing
      · intro resting
        cases resting
  | taken stage _ item => exact faithful.takes stage (inside _ rfl) item
  | filled stage _ item _ perm sorted =>
      exact (faithful.takes stage (inside _ rfl) item).reordered rising perm (.inl sorted)
  | settled _ perm sorted => exact faithful.reordered rising perm sorted
  | emitted stage first => exact faithful.emits stage first
  | rested _ _ =>
      refine ⟨faithful.bounded, List.forall_mem_nil _, fun _ => List.nil_prefix, ?_, fun _ => rfl⟩
      intro _ _ _ flushing
      cases flushing

end Faithful

/-! ## Old items

A mark in each source tells the old items from the new ones. -/

/-- How many old items have yet to be emitted. -/
def behind (merge : Merge ι κ) (sources : Finset ι) (mark : ι → Nat) : Nat :=
  ∑ source ∈ sources, (mark source - merge.emitted source)

/-- How many of them are in the buffer. -/
def olds (merge : Merge ι κ) (sources : Finset ι) (mark : ι → Nat) : Nat :=
  ∑ source ∈ sources, min (lane source merge.buffer).length (mark source - merge.emitted source)

section Olds

variable {mark : ι → Nat}

omit [LinearOrder κ]

theorem olds_le_behind : merge.olds sources mark ≤ merge.behind sources mark :=
  Finset.sum_le_sum fun _ _ => Nat.min_le_right _ _

theorem olds_eq_behind (reached : ∀ source ∈ sources, mark source ≤ merge.reach source) :
    merge.olds sources mark = merge.behind sources mark := by
  refine Finset.sum_congr rfl fun source inside => Nat.min_eq_right ?_
  have far := reached source inside
  rw [reach] at far
  omega

theorem olds_empty (empty : merge.buffer = []) : merge.olds sources mark = 0 := by
  refine Finset.sum_eq_zero fun source _ => ?_
  rw [empty]
  exact Nat.zero_min _

theorem olds_take_le {source : ι} {key : κ} (inside : source ∈ sources) :
    (merge.take source key).olds sources mark ≤ merge.olds sources mark + 1 := by
  have change := @sum_except ι _ sources
    (fun other => min (lane other (merge.take source key).buffer).length
      (mark other - merge.emitted other))
    (fun other => min (lane other merge.buffer).length (mark other - merge.emitted other))
    source inside (fun other different => by rw [lane_take, if_neg (Ne.symm different)])
  rw [lane_take, if_pos rfl, List.length_append, List.length_singleton] at change
  change (merge.take source key).olds sources mark + _ = merge.olds sources mark + _ at change
  omega

theorem olds_perm {buffer : List (ι × κ)} (perm : buffer.Perm merge.buffer) (stage : Stage ι) :
    ({ merge with buffer, stage } : Merge ι κ).olds sources mark = merge.olds sources mark := by
  refine Finset.sum_congr rfl fun source _ => ?_
  have lanes : (lane source buffer).Perm (lane source merge.buffer) := (perm.filter _).map _
  dsimp only
  rw [lanes.length_eq]

variable {source : ι} {key : κ} {rest : List (ι × κ)} {stage : Stage ι}

/-- Emitting an old item leaves one less. -/
theorem olds_emit (inside : source ∈ sources) (first : merge.buffer = (source, key) :: rest) :
    merge.olds sources mark = (merge.emit source key rest stage).olds sources mark +
      if merge.emitted source < mark source then 1 else 0 := by
  have lanes (other : ι) : lane other merge.buffer =
      if source = other then key :: lane other rest else lane other rest := by
    rw [first, lane_cons]
  have change := @sum_except ι _ sources
    (fun other => min (lane other merge.buffer).length (mark other - merge.emitted other))
    (fun other => min (lane other rest).length
      (mark other - (merge.emit source key rest stage).emitted other))
    source inside ?_
  · rw [lanes, if_pos rfl, List.length_cons, emit_self] at change
    change merge.olds sources mark + _ =
      (merge.emit source key rest stage).olds sources mark + _ at change
    split <;> omega
  · intro other different
    rw [lanes, if_neg (Ne.symm different), emit_other different]

theorem behind_emit_le : (merge.emit source key rest stage).behind sources mark ≤
    merge.behind sources mark := by
  refine Finset.sum_le_sum fun other _ => ?_
  by_cases same : other = source
  · subst same
    rw [emit_self]
    omega
  · rw [emit_other same]

theorem reach_emit (first : merge.buffer = (source, key) :: rest) (other : ι) :
    (merge.emit source key rest stage).reach other = merge.reach other := by
  rw [reach, reach, first, lane_cons]
  by_cases same : source = other
  · subst same
    rw [if_pos rfl, List.length_cons, emit_self]
    change _ + (lane source rest).length = _
    omega
  · rw [if_neg same, emit_other (Ne.symm same)]
    rfl

theorem reach_perm (merge : Merge ι κ) {buffer : List (ι × κ)} (perm : buffer.Perm merge.buffer) (stage : Stage ι)
    (source : ι) : ({ merge with buffer, stage } : Merge ι κ).reach source = merge.reach source := by
  have lanes : (lane source buffer).Perm (lane source merge.buffer) := (perm.filter _).map _
  rw [reach, reach, lanes.length_eq]

theorem reach_take (source other : ι) (key : κ) : (merge.take source key).reach other =
    merge.reach other + if source = other then 1 else 0 := by
  rw [reach, lane_take]
  split
  · rw [List.length_append, List.length_singleton, ← Nat.add_assoc]
    rfl
  · rfl

end Olds

/-- Until the round is over, what is read stays read. -/
theorem Step.reach (step : Step capacity keep merge move next) (working : move ≠ .rested)
    (source : ι) : next.reach source = merge.reach source + if move = .taken source then 1 else 0 := by
  cases step with
  | grown _ | begun _ | opened _ | closed _ _ | resumed _ _ => rw [if_neg (by simp)]; rfl
  | @taken _ owner _ key _ _ _ =>
      rw [reach_take]
      simp only [Move.taken.injEq]
  | @filled _ owner _ key _ _ _ _ _ perm _ =>
      refine ((merge.take owner key).reach_perm perm _ source).trans ?_
      rw [reach_take]
      simp only [Move.taken.injEq]
  | settled _ perm _ =>
      rw [if_neg (by simp)]
      exact merge.reach_perm perm _ source
  | emitted _ first =>
      rw [if_neg (by simp)]
      exact reach_emit first source
  | rested _ _ => exact absurd rfl working

namespace Faithful

variable {source : ι} {key : κ} {mark : ι → Nat}

/-- What lies between the emitted items and those not yet read is in the buffer. -/
theorem buffered (faithful : Faithful sources merge) {position : Nat}
    (lower : merge.emitted source ≤ position) (upper : position < merge.reach source)
    (item : (merge.queued source)[position]? = some key) : (source, key) ∈ merge.buffer := by
  obtain ⟨later, whole⟩ := faithful.lanes source
  have place : merge.emitted source + (position - merge.emitted source) = position := by omega
  rw [reach] at upper
  rw [← place, ← List.getElem?_drop, ← whole, List.getElem?_append_left (by omega)] at item
  exact mem_lane.mp (List.mem_of_getElem? item)

/-- If old items are in the buffer, the next item of some source is one. -/
theorem old_front (faithful : Faithful sources merge) (some' : 0 < merge.olds sources mark) :
    ∃ source ∈ sources, ∃ key, (source, key) ∈ merge.buffer ∧
      (merge.queued source)[merge.emitted source]? = some key ∧
      merge.emitted source < mark source := by
  obtain ⟨source, inside, positive⟩ := Finset.exists_ne_zero_of_sum_ne_zero (Nat.ne_of_gt some')
  obtain ⟨later, whole⟩ := faithful.lanes source
  cases lanes : lane source merge.buffer with
  | nil =>
      rw [lanes] at positive
      exact absurd (Nat.zero_min _) positive
  | cons key rest =>
      have member : (source, key) ∈ merge.buffer := mem_lane.mp (lanes ▸ List.mem_cons_self)
      have item : (merge.queued source)[merge.emitted source + 0]? = some key := by
        rw [← List.getElem?_drop, ← whole, lanes]
        rfl
      exact ⟨source, inside, key, member, item, by omega⟩

end Faithful

end Steps

end Merge

end Hogl.Data
