import Hogl.Data.Runs
import Mathlib.Algebra.Group.Nat.Defs

namespace Hogl.Output

open Hogl.Data

/-! # Output buffers

`ostrbuf` of `include/hogl/detail/ostrbuf.hpp` with the two streams below it:
`ostrbuf_fd`, and the buffer of `output_file`.  Each call makes at most one
`writev`, whose result comes with the call.
-/

/-- What `writev` returns: an error, or the number of bytes it took from the
front of what it was offered (a larger number stands for all of them). -/
inductive WriteResult where
  | error
  | accepted (count : Nat)
deriving Repr, DecidableEq

/-- The stream below the buffer; `ostrbuf_fd` stops after a failure. -/
inductive Stream where
  | fd
  | file
deriving Repr, DecidableEq

structure Ostrbuf where
  capacity : Nat
  /-- The first `_size` bytes of `_data`. -/
  data : List UInt8
  failed : Bool
  /-- What the descriptor has taken (ghost). -/
  accepted : List UInt8
  /-- What was handed to the buffer (ghost). -/
  pushed : List UInt8
deriving Repr, DecidableEq

/-- `int r = writev(..)` is negative. -/
def negativeInt (count : Nat) : Bool := 2 ^ 31 ≤ count % 2 ^ 32

inductive BufferCall where
  | pushBack (data : List UInt8) (result : WriteResult)
  /-- `flush(data, n)`, or `flush()` without data. -/
  | flush (data : List UInt8) (result : WriteResult)
deriving Repr, DecidableEq

def BufferCall.data : BufferCall → List UInt8
  | .pushBack data _ | .flush data _ => data

def BufferCall.result : BufferCall → WriteResult
  | .pushBack _ result | .flush _ result => result

namespace Ostrbuf

/-- The constructor; `allocated` tells whether `malloc` returned memory. -/
def create (capacity : UInt32) (allocated : Bool) : Ostrbuf where
  capacity := if allocated then capacity.toNat else 0
  data := []
  failed := capacity != 0 && !allocated
  accepted := []
  pushed := []

variable (stream : Stream) (buf : Ostrbuf)

def room : Nat := buf.capacity - buf.data.length

/-- What both streams do with the buffered and the new data. -/
def offer (data : List UInt8) (result : WriteResult) : Ostrbuf :=
  let offered := buf.data ++ data
  if offered = [] then { buf with data := [] }
  else match result with
    | .error => { buf with data := [], failed := true }
    | .accepted count => { buf with
        data := []
        failed := buf.failed || negativeInt (min count offered.length)
        accepted := buf.accepted ++ offered.take count }

def doFlush (data : List UInt8) (result : WriteResult) : Ostrbuf :=
  match stream with
  | .fd => if buf.failed then buf else buf.offer data result
  | .file => buf.offer data result

def pushBack (data : List UInt8) (result : WriteResult) : Ostrbuf :=
  if buf.room < data.length then buf.doFlush stream data result
  else { buf with data := buf.data ++ data }

def act : BufferCall → Ostrbuf
  | .pushBack data result => { buf.pushBack stream data result with pushed := buf.pushed ++ data }
  | .flush data result => { buf.doFlush stream data result with pushed := buf.pushed ++ data }

def after (calls : List BufferCall) : Ostrbuf := runs (act stream) buf calls

/-- How the `writev` of a call ends, if the call makes one. -/
inductive Outcome where
  | unwritten
  | complete
  | short
  | failure
deriving Repr, DecidableEq

/-- The data that a call offers to `writev`. -/
def offered : BufferCall → List UInt8
  | .pushBack data _ =>
      if buf.room < data.length ∧ ¬ (stream = .fd ∧ buf.failed) then buf.data ++ data else []
  | .flush data _ => if stream = .fd ∧ buf.failed then [] else buf.data ++ data

/-- How `writev` ends on an offer. -/
def ending (offered : List UInt8) : WriteResult → Outcome
  | .error => if offered = [] then .unwritten else .failure
  | .accepted count =>
      if offered = [] then .unwritten
      else if negativeInt (min count offered.length) then .failure
      else if count < offered.length then .short else .complete

def outcome (call : BufferCall) : Outcome := ending (buf.offered stream call) call.result

variable {stream buf}

theorem doFlush_eq (live : ¬ (stream = .fd ∧ buf.failed)) (data : List UInt8) (result : WriteResult) :
    buf.doFlush stream data result = buf.offer data result := by
  cases stream with
  | fd => exact if_neg fun failed => live ⟨rfl, failed⟩
  | file => rfl

theorem doFlush_dead (dead : stream = .fd ∧ buf.failed) (data : List UInt8) (result : WriteResult) :
    buf.doFlush stream data result = buf := by
  obtain ⟨rfl, failed⟩ := dead
  exact if_pos failed

/-! ## One call -/

/-- What became of the data that `offer` had. -/
inductive Offered (before after : Ostrbuf) (data : List UInt8) : Outcome → Prop where
  | unwritten (nothing : before.data ++ data = []) (result : after = { before with data := [] }) :
      Offered before after data .unwritten
  | complete (result : after = { before with
      data := [], accepted := before.accepted ++ (before.data ++ data) }) :
      Offered before after data .complete
  | short {count : Nat} (less : count < (before.data ++ data).length)
      (result : after = { before with
        data := [], accepted := before.accepted ++ (before.data ++ data).take count }) :
      Offered before after data .short
  | failure (failed : after.failed = true) (empty : after.data = [])
      (capacity : after.capacity = before.capacity) : Offered before after data .failure

theorem offer_offered (buf : Ostrbuf) (data : List UInt8) (result : WriteResult) :
    Offered buf (buf.offer data result) data (ending (buf.data ++ data) result) := by
  by_cases nothing : buf.data ++ data = []
  · have unwritten : ending (buf.data ++ data) result = .unwritten := by
      cases result <;> simp only [ending, if_pos nothing]
    rw [unwritten]
    exact .unwritten nothing (by simp only [offer, if_pos nothing])
  · cases result with
    | error =>
        simp only [offer, ending, if_neg nothing]
        exact .failure rfl rfl rfl
    | accepted count =>
        simp only [offer, ending, if_neg nothing]
        split
        · rename_i negative
          exact .failure (by rw [negative, Bool.or_true]) rfl rfl
        · rename_i positive
          rw [eq_false_of_ne_true positive, Bool.or_false]
          split
          · exact .short ‹_› rfl
          · rename_i long
            rw [List.take_of_length_le (Nat.le_of_not_lt long)]
            exact .complete rfl

/-- What a call does: it copies its data, it does nothing because the stream
has failed, or it offers what there is. -/
theorem act_cases (stream : Stream) (buf : Ostrbuf) (call : BufferCall) :
    (buf.outcome stream call = .unwritten ∧ call.data.length ≤ buf.room ∧
      buf.act stream call = { buf with
        data := buf.data ++ call.data, pushed := buf.pushed ++ call.data }) ∨
    (buf.outcome stream call = .unwritten ∧ buf.failed = true ∧
      buf.act stream call = { buf with pushed := buf.pushed ++ call.data }) ∨
    ∃ after, Offered buf after call.data (buf.outcome stream call) ∧
      buf.act stream call = { after with pushed := buf.pushed ++ call.data } := by
  have silent (nothing : buf.offered stream call = []) : buf.outcome stream call = .unwritten := by
    rw [outcome, nothing]
    cases call.result <;> rfl
  by_cases dead : stream = .fd ∧ buf.failed
  · cases call with
    | pushBack data result =>
        have nothing : buf.offered stream (.pushBack data result) = [] :=
          if_neg fun both => both.2 dead
        by_cases fits : buf.room < data.length
        · refine .inr (.inl ⟨silent nothing, dead.2, ?_⟩)
          simp only [act, pushBack, if_pos fits, doFlush_dead dead]
          rfl
        · refine .inl ⟨silent nothing, Nat.le_of_not_lt fits, ?_⟩
          simp only [act, pushBack, if_neg fits]
          rfl
    | flush data result =>
        have nothing : buf.offered stream (.flush data result) = [] := if_pos dead
        refine .inr (.inl ⟨silent nothing, dead.2, ?_⟩)
        simp only [act, doFlush_dead dead]
        rfl
  · cases call with
    | pushBack data result =>
        by_cases fits : buf.room < data.length
        · refine .inr (.inr ⟨buf.offer data result, ?_, ?_⟩)
          · have offered : buf.offered stream (.pushBack data result) = buf.data ++ data :=
              if_pos ⟨fits, dead⟩
            rw [outcome, offered]
            exact offer_offered buf data result
          · simp only [act, pushBack, if_pos fits, doFlush_eq dead]
            rfl
        · have nothing : buf.offered stream (.pushBack data result) = [] :=
            if_neg fun both => fits both.1
          refine .inl ⟨silent nothing, Nat.le_of_not_lt fits, ?_⟩
          simp only [act, pushBack, if_neg fits]
          rfl
    | flush data result =>
        refine .inr (.inr ⟨buf.offer data result, ?_, ?_⟩)
        · have offered : buf.offered stream (.flush data result) = buf.data ++ data := if_neg dead
          rw [outcome, offered]
          exact offer_offered buf data result
        · simp only [act, doFlush_eq dead]
          rfl

theorem act_size (fits : buf.data.length ≤ buf.capacity) (call : BufferCall) :
    (buf.act stream call).data.length ≤ (buf.act stream call).capacity := by
  rcases act_cases stream buf call with ⟨-, room, result⟩ | ⟨-, -, result⟩ | ⟨after, offered, result⟩
  · rw [result]
    rw [Ostrbuf.room] at room
    simp only [List.length_append]
    omega
  · rw [result]
    exact fits
  · rw [result]
    have empty : after.data = [] := by
      generalize buf.outcome stream call = ended at offered
      cases offered with
      | unwritten _ same | complete same | short _ same => rw [same]
      | failure _ empty => exact empty
    simp only [empty]
    exact Nat.zero_le _

/-- The stream fails exactly where a `writev` does. -/
theorem act_failed (stream : Stream) (buf : Ostrbuf) (call : BufferCall) :
    (buf.act stream call).failed = true ↔
      buf.failed = true ∨ buf.outcome stream call = .failure := by
  rcases act_cases stream buf call with ⟨silent, -, result⟩ | ⟨silent, -, result⟩ |
    ⟨after, offered, result⟩
  · rw [result, silent]
    simp only [reduceCtorEq, or_false]
  · rw [result, silent]
    simp only [reduceCtorEq, or_false]
  · rw [result]
    generalize buf.outcome stream call = ended at offered
    cases offered with
    | unwritten _ same | complete same | short _ same =>
        rw [same]
        simp only [reduceCtorEq, or_false]
    | failure failed => simp only [failed, or_true]

/-- What the descriptor has taken and what it has still to be given. -/
def held (buf : Ostrbuf) : List UInt8 := buf.accepted ++ buf.data

theorem act_pushed (stream : Stream) (buf : Ostrbuf) (call : BufferCall) :
    (buf.act stream call).pushed = buf.pushed ++ call.data := by
  cases call <;> rfl

/-- A stream that has not failed keeps or passes on all it is given, unless a
`writev` is short. -/
theorem act_held {call : BufferCall} (live : (buf.act stream call).failed = false) :
    (buf.outcome stream call ≠ .short → (buf.act stream call).held = buf.held ++ call.data) ∧
    (buf.outcome stream call = .short →
      (buf.act stream call).held.length < (buf.held ++ call.data).length) ∧
    (buf.act stream call).held.length ≤ (buf.held ++ call.data).length := by
  rcases act_cases stream buf call with ⟨silent, -, result⟩ | ⟨silent, failed, result⟩ |
    ⟨after, offered, result⟩
  · have held : (buf.act stream call).held = buf.held ++ call.data := by
      simp only [result, Ostrbuf.held, List.append_assoc]
    refine ⟨fun _ => held, fun short => ?_, Nat.le_of_eq (congrArg List.length held)⟩
    cases silent.symm.trans short
  · rw [result] at live
    cases failed.symm.trans live
  · rw [result] at live ⊢
    generalize buf.outcome stream call = ended at offered
    cases offered with
    | unwritten nothing same =>
        obtain ⟨noData, noCall⟩ := List.append_eq_nil_iff.mp nothing
        have held : Ostrbuf.held { after with pushed := buf.pushed ++ call.data } =
            buf.held ++ call.data := by
          simp only [same, Ostrbuf.held, noData, noCall, List.append_nil]
        refine ⟨fun _ => held, fun short => ?_, Nat.le_of_eq (congrArg List.length held)⟩
        cases short
    | complete same =>
        have held : Ostrbuf.held { after with pushed := buf.pushed ++ call.data } =
            buf.held ++ call.data := by
          simp only [same, Ostrbuf.held, List.append_nil, List.append_assoc]
        refine ⟨fun _ => held, fun short => ?_, Nat.le_of_eq (congrArg List.length held)⟩
        cases short
    | short less same =>
        have fewer : (Ostrbuf.held { after with pushed := buf.pushed ++ call.data }).length <
            (buf.held ++ call.data).length := by
          simp only [same, Ostrbuf.held, List.append_nil, List.length_append, List.length_take] at less ⊢
          omega
        exact ⟨fun whole => absurd rfl whole, fun _ => fewer, Nat.le_of_lt fewer⟩
    | failure failed => cases failed.symm.trans live

/-! ## A run of calls -/

theorem after_concat (stream : Stream) (buf : Ostrbuf) (calls : List BufferCall)
    (call : BufferCall) :
    buf.after stream (calls ++ [call]) = (buf.after stream calls).act stream call :=
  runs_concat (act stream) buf calls call

/-- No `writev` of the run ends this way. -/
def Avoids (stream : Stream) (buf : Ostrbuf) (ending : Outcome) (calls : List BufferCall) : Prop :=
  AtEach (fun earlier call => (buf.after stream earlier).outcome stream call ≠ ending) calls

theorem avoids_concat {ending : Outcome} {calls : List BufferCall} {call : BufferCall} :
    buf.Avoids stream ending (calls ++ [call]) ↔ buf.Avoids stream ending calls ∧
      (buf.after stream calls).outcome stream call ≠ ending :=
  ⟨fun avoids => ⟨AtEach.of_append avoids, avoids calls call [] rfl⟩,
    fun both => AtEach.concat both.1 both.2⟩

theorem after_size (fits : buf.data.length ≤ buf.capacity) (calls : List BufferCall) :
    (buf.after stream calls).data.length ≤ (buf.after stream calls).capacity :=
  @runs_invariant _ _ (act stream) (fun buf => buf.data.length ≤ buf.capacity) buf fits
    (fun _ call fits => act_size fits call) calls

theorem after_failed (stream : Stream) (buf : Ostrbuf) (calls : List BufferCall) :
    (buf.after stream calls).failed = true ↔
      buf.failed = true ∨ ¬ buf.Avoids stream .failure calls := by
  induction calls using List.reverseRecOn with
  | nil => simp only [after, runs_nil, Avoids, atEach_nil, not_true, or_false]
  | append_singleton calls last ih =>
      rw [after_concat, act_failed, ih, avoids_concat, not_and_or, not_not, or_assoc]

theorem after_held (even : buf.held = buf.pushed) (calls : List BufferCall)
    (live : (buf.after stream calls).failed = false) :
    (buf.Avoids stream .short calls →
      (buf.after stream calls).held = (buf.after stream calls).pushed) ∧
    (¬ buf.Avoids stream .short calls →
      (buf.after stream calls).held.length < (buf.after stream calls).pushed.length) := by
  induction calls using List.reverseRecOn with
  | nil => exact ⟨fun _ => even, fun short => absurd (atEach_nil _) short⟩
  | append_singleton calls last ih =>
      rw [after_concat] at live ⊢
      have earlier : (buf.after stream calls).failed = false := by
        apply eq_false_of_ne_true
        intro failed
        have still := (act_failed stream (buf.after stream calls) last).mpr (.inl failed)
        cases still.symm.trans live
      obtain ⟨whole, fewer⟩ := ih earlier
      obtain ⟨kept, lost, bound⟩ := act_held live
      rw [avoids_concat, act_pushed]
      constructor
      · intro ⟨before, now⟩
        rw [kept now, whole before]
      · intro short
        rw [List.length_append] at lost bound ⊢
        by_cases before : buf.Avoids stream .short calls
        · have now : (buf.after stream calls).outcome stream last = .short := by
            by_contra other
            exact short ⟨before, other⟩
          have even := congrArg List.length (whole before)
          have less := lost now
          omega
        · have less := fewer before
          omega

/-- A final flush leaves nothing in a buffer whose stream has not failed. -/
theorem flush_data {last : WriteResult} (live : (buf.act stream (.flush [] last)).failed = false) :
    (buf.act stream (.flush [] last)).data = [] := by
  have alive : buf.failed = false := by
    apply eq_false_of_ne_true
    intro failed
    cases ((act_failed stream buf _).mpr (.inl failed)).symm.trans live
  have offers : buf.doFlush stream [] last = buf.offer [] last :=
    doFlush_eq (fun dead => by rw [alive] at dead; cases dead.2) [] last
  change (buf.doFlush stream [] last).data = []
  rw [offers]
  have offered := offer_offered buf [] last
  generalize ending (buf.data ++ []) last = ended at offered
  cases offered with
  | unwritten _ same | complete same | short _ same => rw [same]
  | failure _ empty => exact empty

/-- After a final flush everything handed to the buffer has been taken, or the
stream has failed, if and only if there was no memory for the buffer, a
`writev` failed or no `writev` was short; the buffer is never overrun. -/
theorem buffer_faithful_iff (stream : Stream) (capacity : UInt32) (allocated : Bool)
    (calls : List BufferCall) (last : WriteResult) :
    ((∀ earlier, earlier <+: calls ++ [.flush [] last] →
      ((create capacity allocated).after stream earlier).data.length ≤
        ((create capacity allocated).after stream earlier).capacity) ∧
    (((create capacity allocated).after stream (calls ++ [.flush [] last])).accepted =
      ((create capacity allocated).after stream (calls ++ [.flush [] last])).pushed ∨
      ((create capacity allocated).after stream (calls ++ [.flush [] last])).failed = true)) ↔
    (capacity ≠ 0 ∧ allocated = false) ∨
    ¬ (create capacity allocated).Avoids stream .failure (calls ++ [.flush [] last]) ∨
    (create capacity allocated).Avoids stream .short (calls ++ [.flush [] last]) := by
  have memory : (create capacity allocated).failed = true ↔ capacity ≠ 0 ∧ allocated = false := by
    simp [create]
  have failing := after_failed stream (create capacity allocated) (calls ++ [.flush [] last])
  rw [memory] at failing
  rw [← or_assoc, ← failing]
  constructor
  · rintro ⟨-, same | failed⟩
    · by_cases failed : ((create capacity allocated).after stream
          (calls ++ [.flush [] last])).failed = true
      · exact .inl failed
      · have live := eq_false_of_ne_true failed
        right
        by_contra short
        have less := (after_held rfl _ live).2 short
        rw [held, ← same, List.length_append] at less
        omega
    · exact .inl failed
  · intro either
    refine ⟨fun earlier _ => after_size (Nat.zero_le _) earlier, ?_⟩
    by_cases failed : ((create capacity allocated).after stream
        (calls ++ [.flush [] last])).failed = true
    · exact .inr failed
    · have live := eq_false_of_ne_true failed
      have whole := (after_held rfl _ live).1 (either.resolve_left failed)
      left
      rw [after_concat] at live
      rw [held, after_concat, flush_data live, List.append_nil] at whole
      rw [after_concat]
      exact whole

/-- An unbuffered stream takes one of two bytes and says so. -/
theorem short_write_truncates :
    ¬ ∀ (stream : Stream) (capacity : UInt32) (allocated : Bool) (calls : List BufferCall)
      (last : WriteResult),
      ((create capacity allocated).after stream (calls ++ [.flush [] last])).accepted =
        ((create capacity allocated).after stream (calls ++ [.flush [] last])).pushed ∨
      ((create capacity allocated).after stream (calls ++ [.flush [] last])).failed = true := by
  intro faithful
  have lost := faithful .fd 0 true [.pushBack [1, 2] (.accepted 1)] (.accepted 0)
  revert lost
  decide

end Ostrbuf

end Hogl.Output
