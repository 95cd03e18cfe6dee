import Hogl.Output.Ostrbuf

namespace Hogl.Output

open Hogl.Data

/-! # The tee

`ostrbuf_tee` of `src/ostrbuf-tee.cc` above two different buffers.  A flush of
the tee makes at most two flushes of each child. -/

/-- A buffer below the tee, with the stream it writes to. -/
structure Child where
  stream : Stream
  buf : Ostrbuf
deriving Repr, DecidableEq

structure Tee where
  capacity : Nat
  data : List UInt8
  child : Fin 2 → Child
  /-- What was handed to the tee (ghost). -/
  pushed : List UInt8

/-- The results of the children for the buffered and for the new data. -/
structure TeeResults where
  buffered : Fin 2 → WriteResult
  unbuffered : Fin 2 → WriteResult

inductive TeeCall where
  | pushBack (data : List UInt8) (results : TeeResults)
  | flush (data : List UInt8) (results : TeeResults)

def TeeCall.data : TeeCall → List UInt8
  | .pushBack data _ | .flush data _ => data

def TeeCall.results : TeeCall → TeeResults
  | .pushBack _ results | .flush _ results => results

def Child.flush (child : Child) (data : List UInt8) (result : WriteResult) : Child :=
  { child with buf := child.buf.act child.stream (.flush data result) }

namespace Tee

/-- Flush data that is not empty to both children. -/
def forward (child : Fin 2 → Child) (data : List UInt8) (results : Fin 2 → WriteResult) :
    Fin 2 → Child :=
  if data = [] then child else fun side => (child side).flush data (results side)

variable (tee : Tee)

def failed : Bool := (tee.child 0).buf.failed || (tee.child 1).buf.failed

def room : Nat := tee.capacity - tee.data.length

def doFlush (data : List UInt8) (results : TeeResults) : Tee :=
  if tee.failed then tee
  else { tee with
    data := []
    child := forward (forward tee.child tee.data results.buffered) data results.unbuffered }

def pushBack (data : List UInt8) (results : TeeResults) : Tee :=
  if tee.room < data.length then tee.doFlush data results
  else { tee with data := tee.data ++ data }

def act : TeeCall → Tee
  | .pushBack data results => { tee.pushBack data results with pushed := tee.pushed ++ data }
  | .flush data results => { tee.doFlush data results with pushed := tee.pushed ++ data }

def after (calls : List TeeCall) : Tee := runs act tee calls

/-- The call is a flush, or a push that does not fit. -/
def Flushes : TeeCall → Prop
  | .pushBack data _ => tee.room < data.length
  | .flush _ _ => True

end Tee

instance (tee : Tee) (call : TeeCall) : Decidable (tee.Flushes call) :=
  match call with
  | .pushBack _ _ => inferInstanceAs (Decidable (_ < _))
  | .flush _ _ => inferInstanceAs (Decidable True)

/-- The child gets data that is not empty, and its `writev` accepts all that it
is offered. -/
def Child.Takes (child : Child) (data : List UInt8) (result : WriteResult) : Prop :=
  data ≠ [] → child.buf.outcome child.stream (.flush data result) = .complete

instance (child : Child) (data : List UInt8) (result : WriteResult) :
    Decidable (child.Takes data result) := inferInstanceAs (Decidable (_ → _))

/-- In this call the child takes in full whatever it gets. -/
def Tee.Takes (tee : Tee) (side : Fin 2) (call : TeeCall) : Prop :=
  tee.Flushes call →
    (tee.child side).Takes tee.data (call.results.buffered side) ∧
      (Tee.forward tee.child tee.data call.results.buffered side).Takes call.data
        (call.results.unbuffered side)

instance (tee : Tee) (side : Fin 2) (call : TeeCall) : Decidable (tee.Takes side call) :=
  inferInstanceAs (Decidable (_ → _))

/-- A child that takes a flush in full passes its own buffer on first. -/
theorem Child.flush_takes {child : Child} {data : List UInt8} {result : WriteResult}
    (live : child.buf.failed = false) (given : data ≠ []) (takes : child.Takes data result) :
    (child.flush data result).buf.failed = false ∧ (child.flush data result).buf.data = [] ∧
      (child.flush data result).buf.held = child.buf.held ++ data := by
  have complete := takes given
  rcases Ostrbuf.act_cases child.stream child.buf (.flush data result) with
    ⟨silent, -⟩ | ⟨silent, -⟩ | ⟨after, offered, same⟩
  · cases silent.symm.trans complete
  · cases silent.symm.trans complete
  · rw [complete] at offered
    have flushed : (child.flush data result).buf = { after with pushed := child.buf.pushed ++ data } :=
      same
    rw [flushed]
    cases offered with
    | complete result =>
        rw [result]
        refine ⟨live, rfl, ?_⟩
        simp only [Ostrbuf.held, List.append_nil, List.append_assoc]
        rfl

namespace Tee

theorem forward_takes {child : Fin 2 → Child} {data : List UInt8} {results : Fin 2 → WriteResult}
    {side : Fin 2} (live : (child side).buf.failed = false)
    (takes : (child side).Takes data (results side)) :
    (forward child data results side).buf.failed = false ∧
      (forward child data results side).buf.held = (child side).buf.held ++ data ∧
      (data = [] ∧ forward child data results side = child side ∨
        (forward child data results side).buf.data = []) := by
  by_cases nothing : data = []
  · rw [forward, if_pos nothing, nothing, List.append_nil]
    exact ⟨live, rfl, .inl ⟨rfl, rfl⟩⟩
  · obtain ⟨still, empty, held⟩ := (child side).flush_takes live nothing takes
    rw [forward, if_neg nothing]
    exact ⟨still, held, .inr empty⟩

/-- What a child got and what waits for it in the tee is what was handed to
the tee, behind what the child had at the start. -/
structure Follows (start : Child) (side : Fin 2) (tee : Tee) : Prop where
  live : (tee.child side).buf.failed = false
  stream : (tee.child side).buf.held ++ tee.data = start.buf.held ++ tee.pushed
  untouched : (tee.child side).buf.data = [] ∨ tee.child side = start ∧ tee.data = tee.pushed

variable {tee : Tee} {start : Child} {side : Fin 2}

theorem follows_doFlush {data : List UInt8} {results : TeeResults}
    (follows : Follows start side tee) (live : tee.failed = false)
    (takes : (tee.child side).Takes tee.data (results.buffered side) ∧
      (forward tee.child tee.data results.buffered side).Takes data (results.unbuffered side)) :
    Follows start side { tee.doFlush data results with pushed := tee.pushed ++ data } ∧
      (tee.doFlush data results).data = [] := by
  obtain ⟨live', held, first⟩ := forward_takes follows.live takes.1
  obtain ⟨live'', held', second⟩ := forward_takes live' takes.2
  have flushed : tee.doFlush data results = { tee with
      data := []
      child := forward (forward tee.child tee.data results.buffered) data results.unbuffered } := by
    rw [doFlush, live]
    rfl
  rw [flushed]
  refine ⟨⟨live'', ?_, ?_⟩, rfl⟩
  · rw [held', held, List.append_nil, follows.stream, List.append_assoc]
  · rcases second with ⟨noData, sameSecond⟩ | empty
    · rcases first with ⟨noBuffer, sameFirst⟩ | empty
      · rcases follows.untouched with empty | ⟨untouched, waiting⟩
        · exact .inl ((congrArg (·.buf.data) (sameSecond.trans sameFirst)).trans empty)
        · refine .inr ⟨sameSecond.trans (sameFirst.trans untouched), ?_⟩
          rw [noData, ← waiting, noBuffer]
          rfl
      · exact .inl ((congrArg (·.buf.data) sameSecond).trans empty)
    · exact .inl empty

/-- What a call leaves of a child that takes it in full. -/
theorem follows_act {call : TeeCall} (follows : Follows start side tee) (live : tee.failed = false)
    (takes : tee.Takes side call) :
    Follows start side (tee.act call) ∧ (tee.Flushes call → (tee.act call).data = []) := by
  cases call with
  | flush data results =>
      obtain ⟨next, empty⟩ := follows_doFlush follows live (takes trivial)
      exact ⟨next, fun _ => empty⟩
  | pushBack data results =>
      by_cases full : tee.room < data.length
      · obtain ⟨next, empty⟩ := follows_doFlush follows live (takes full)
        rw [act, pushBack, if_pos full]
        exact ⟨next, fun _ => empty⟩
      · rw [act, pushBack, if_neg full]
        refine ⟨⟨follows.live, ?_, ?_⟩, fun flushes => absurd flushes full⟩
        · rw [← List.append_assoc, follows.stream, List.append_assoc]
        · rcases follows.untouched with empty | ⟨untouched, waiting⟩
          · exact .inl empty
          · exact .inr ⟨untouched, by rw [waiting]⟩

theorem forward_failed {child : Fin 2 → Child} {data : List UInt8} {results : Fin 2 → WriteResult}
    (failed : (child side).buf.failed = true) :
    (forward child data results side).buf.failed = true := by
  rw [forward]
  split
  · exact failed
  · exact (Ostrbuf.act_failed _ _ _).mpr (.inl failed)

/-- A child that failed stays so. -/
theorem act_failed (call : TeeCall) (failed : (tee.child side).buf.failed = true) :
    ((tee.act call).child side).buf.failed = true := by
  have flushed (data : List UInt8) (results : TeeResults) :
      ((tee.doFlush data results).child side).buf.failed = true := by
    rw [doFlush]
    split
    · exact failed
    · exact forward_failed (forward_failed failed)
  cases call with
  | flush data results => exact flushed data results
  | pushBack data results =>
      rw [act, pushBack]
      split
      · exact flushed data results
      · exact failed

theorem live_iff : tee.failed = false ↔ ∀ side, (tee.child side).buf.failed = false := by
  rw [failed, Bool.or_eq_false_iff, Fin.forall_fin_two]

theorem after_concat (tee : Tee) (calls : List TeeCall) (call : TeeCall) :
    tee.after (calls ++ [call]) = (tee.after calls).act call :=
  runs_concat act tee calls call

theorem after_pushed (calls : List TeeCall) :
    (tee.after calls).pushed = tee.pushed ++ calls.flatMap TeeCall.data := by
  induction calls using List.reverseRecOn with
  | nil => exact (List.append_nil _).symm
  | append_singleton calls last ih =>
      rw [after_concat, List.flatMap_append, ← List.append_assoc, ← ih]
      cases last <;> exact congrArg _ (List.append_nil _).symm

/-- A child takes in full what it gets in each call. -/
def TakesAll (tee : Tee) (side : Fin 2) (calls : List TeeCall) : Prop :=
  AtEach (fun earlier call => (tee.after earlier).Takes side call) calls

instance (tee : Tee) (side : Fin 2) (calls : List TeeCall) : Decidable (tee.TakesAll side calls) :=
  inferInstanceAs (Decidable (AtEach _ _))

/-- A child goes on with the tee as long as the other one has not failed. -/
theorem follows_after {calls : List TeeCall} (initial : Follows start side tee)
    (live : ∀ other, other ≠ side → ((tee.after calls).child other).buf.failed = false)
    (takes : tee.TakesAll side calls) :
    Follows start side (tee.after calls) := by
  induction calls using List.reverseRecOn with
  | nil => exact initial
  | append_singleton calls last ih =>
      rw [after_concat] at live ⊢
      have before : ∀ other, other ≠ side → ((tee.after calls).child other).buf.failed = false := by
        intro other different
        apply eq_false_of_ne_true
        intro failed
        cases (act_failed last failed).symm.trans (live other different)
      have follows := ih before takes.of_append
      refine (follows_act follows (live_iff.mpr fun other => ?_) (takes calls last [] rfl)).1
      by_cases same : other = side
      · rw [same]
        exact follows.live
      · exact before other same

/-- No child fails that takes everything in full. -/
theorem follows_both {calls : List TeeCall} {start : Fin 2 → Child}
    (initial : ∀ side, Follows (start side) side tee) (takes : ∀ side, tee.TakesAll side calls)
    (side : Fin 2) : Follows (start side) side (tee.after calls) := by
  induction calls using List.reverseRecOn generalizing side with
  | nil => exact initial side
  | append_singleton calls last ih =>
      have follows := ih fun side => (takes side).of_append
      rw [after_concat]
      exact (follows_act (follows side) (live_iff.mpr fun other => (follows other).live)
        (takes side calls last [] rfl)).1

/-- A new tee above children that have not failed. -/
def create (capacity : Nat) (child : Fin 2 → Child) : Tee := { capacity, data := [], child, pushed := [] }

theorem create_follows {capacity : Nat} {child : Fin 2 → Child}
    (live : (child side).buf.failed = false) : Follows (child side) side (create capacity child) where
  live := live
  stream := rfl
  untouched := .inr ⟨rfl, rfl⟩

/-- What a child's sink has after a flush. -/
theorem Follows.sink (follows : Follows start side tee) (empty : tee.data = [])
    (moved : start.buf.data = [] ∨ tee.pushed ≠ []) :
    (tee.child side).buf.accepted = start.buf.held ++ tee.pushed := by
  have nothing : (tee.child side).buf.data = [] := by
    rcases follows.untouched with drained | ⟨untouched, waiting⟩
    · exact drained
    · rcases moved with drained | given
      · rw [untouched, drained]
      · exact absurd (waiting.symm.trans empty) given
  have stream := follows.stream
  rw [empty, List.append_nil, Ostrbuf.held, nothing, List.append_nil] at stream
  exact stream

/-- A flush that a child takes in full brings its sink up to date. -/
theorem sink_after_flush {capacity : Nat} {child : Fin 2 → Child} {calls : List TeeCall}
    {call : TeeCall} (follows : Follows (child side) side ((create capacity child).after calls))
    (live : ((create capacity child).after calls).failed = false)
    (takes : (create capacity child).TakesAll side (calls ++ [call]))
    (flushes : ((create capacity child).after calls).Flushes call) :
    ((create capacity child).after (calls ++ [call])).data = [] ∧
      ((child side).buf.data = [] ∨ (calls ++ [call]).flatMap TeeCall.data ≠ [] →
        (((create capacity child).after (calls ++ [call])).child side).buf.accepted =
          (child side).buf.held ++ (calls ++ [call]).flatMap TeeCall.data) := by
  obtain ⟨next, emptied⟩ := follows_act follows live (takes calls call [] rfl)
  have pushed := @after_pushed (create capacity child) (calls ++ [call])
  rw [show (create capacity child).pushed = [] from rfl, List.nil_append] at pushed
  rw [← pushed, after_concat]
  exact ⟨emptied flushes, next.sink (emptied flushes)⟩

/-- After a flush the sink of each child has what the child had at the start
and all bytes pushed to the tee, once a byte was pushed or if the child's
buffer was empty; and a child that fails in the flush does not keep them from
the other one. -/
theorem tee_feeds_both {capacity : Nat} {child : Fin 2 → Child}
    (live : ∀ side, (child side).buf.failed = false) {calls : List TeeCall} {call : TeeCall}
    (flushes : ((create capacity child).after calls).Flushes call) :
    ((∀ side, (create capacity child).TakesAll side (calls ++ [call])) →
      ((create capacity child).after (calls ++ [call])).data = [] ∧
      ∀ side, (child side).buf.data = [] ∨ (calls ++ [call]).flatMap TeeCall.data ≠ [] →
        (((create capacity child).after (calls ++ [call])).child side).buf.accepted =
          (child side).buf.held ++ (calls ++ [call]).flatMap TeeCall.data) ∧
    ∀ side other, side ≠ other →
      (((create capacity child).after calls).child side).buf.failed = false →
      (((create capacity child).after (calls ++ [call])).child side).buf.failed = true →
      (create capacity child).TakesAll other (calls ++ [call]) →
      (child other).buf.data = [] ∨ (calls ++ [call]).flatMap TeeCall.data ≠ [] →
        (((create capacity child).after (calls ++ [call])).child other).buf.accepted =
          (child other).buf.held ++ (calls ++ [call]).flatMap TeeCall.data := by
  constructor
  · intro takes
    have follows := follows_both (fun side => create_follows (live side))
      fun side => (takes side).of_append
    have alive := live_iff.mpr fun side => (follows side).live
    refine ⟨(sink_after_flush (follows 0) alive (takes 0) flushes).1, fun side => ?_⟩
    exact (sink_after_flush (follows side) alive (takes side) flushes).2
  · intro side other different before _ takes
    have only (third : Fin 2) (apart : third ≠ other) : third = side := by
      omega
    have follows := follows_after (create_follows (live other))
      (fun third apart => by rw [only third apart]; exact before) takes.of_append
    have alive := live_iff.mpr fun third => by
      by_cases same : third = other
      · rw [same]
        exact follows.live
      · rw [only third same]
        exact before
    exact (sink_after_flush follows alive takes flushes).2

/-- Descriptors whose buffers hold the byte of a header. -/
def headed (side : Fin 2) : Child :=
  ⟨.fd, ⟨8, [UInt8.ofNat side.val], false, [], [UInt8.ofNat side.val]⟩⟩

/-- Every `writev` accepts all it is offered. -/
def allAccepted : TeeResults := ⟨fun _ => .accepted 8, fun _ => .accepted 8⟩

/-- A push that fits and one that does not, behind two headers. -/
theorem tee_feeds_both_headed :
    let tee := (create 1 headed).after
      [.pushBack [3] allAccepted, .pushBack [4] allAccepted]
    tee.data = [] ∧ (tee.child 0).buf.accepted = [0, 3, 4] ∧ (tee.child 1).buf.accepted = [1, 3, 4] := by
  obtain ⟨all, -⟩ := @tee_feeds_both 1 headed (by decide)
    [.pushBack [3] allAccepted] (.pushBack [4] allAccepted) (by decide)
  obtain ⟨empty, sinks⟩ := all (by decide)
  exact ⟨empty, sinks 0 (.inr (by decide)), sinks 1 (.inr (by decide))⟩

/-- A flush of a tee that got nothing is not passed on, so the headers stay in
the buffers of the children. -/
theorem tee_keeps_headers : ¬ ∀ (capacity : Nat) (child : Fin 2 → Child) (calls : List TeeCall)
    (call : TeeCall), (∀ side, (child side).buf.failed = false) →
    ((create capacity child).after calls).Flushes call →
    (∀ side, (create capacity child).TakesAll side (calls ++ [call])) →
    ∀ side, (((create capacity child).after (calls ++ [call])).child side).buf.accepted =
      (child side).buf.held ++ (calls ++ [call]).flatMap TeeCall.data := by
  intro always
  have passed := always 1 headed [] (.flush [] allAccepted) (by decide) (by decide)
    (by decide) 0
  revert passed
  decide

end Tee

end Hogl.Output
