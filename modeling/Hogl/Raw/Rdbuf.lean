import Hogl.Data.Bytes
import Mathlib.Data.List.TakeDrop

namespace Hogl.Raw

open Hogl.Data

/-! # The buffered reader of the tools

`file_rdbuf` of `tools/rdbuf.cc` on a file that is not being followed.
`input` is what the coming calls of `::read` store; an empty item and the end
of the list are the end of the file. -/

structure Rdbuf where
  data : List UInt8
  capacity : UInt32
  head : UInt32
  size : UInt32
  count : UInt64
  input : List (List UInt8)
deriving Repr, DecidableEq

namespace Rdbuf

/-- The constructor and `reset`, with whatever `malloc` left in the buffer. -/
def create (capacity : UInt32) (data : List UInt8) (input : List (List UInt8)) : Rdbuf :=
  { data, capacity, head := 0, size := 0, count := 0, input }

/-- The bytes go to `dst` if there is one; the length that is left comes with
the new state. -/
def copyOut (buf : Rdbuf) (dst : Bool) (len : UInt32) : List UInt8 × UInt32 × Rdbuf :=
  let n := if len < buf.size then len else buf.size
  (if dst then readAt buf.data buf.head.toNat n.toNat else [], len - n,
    { buf with count := buf.count + n.toUInt64, head := buf.head + n, size := buf.size - n })

def readIn (buf : Rdbuf) : Bool × Rdbuf :=
  match buf.input with
  | [] => (false, buf)
  | chunk :: input =>
      if chunk.length = 0 then (false, { buf with input })
      else (true, { buf with
        data := chunk ++ buf.data.drop chunk.length
        head := 0
        size := UInt32.ofNat chunk.length
        input })

/-- The bytes that were stored, and the result. -/
structure Answer where
  bytes : List UInt8
  ok : Bool
deriving Repr, DecidableEq

/-- The loop of `read`. -/
def readFrom (dst : Bool) : Nat → UInt32 → Rdbuf → Option (Answer × Rdbuf)
  | 0, _, _ => none
  | fuel + 1, len, buf =>
      if len = 0 then some (⟨[], true⟩, buf)
      else
        let (filled, buf) := if buf.size = 0 then buf.readIn else (true, buf)
        if filled then do
          let (bytes, len, buf) := buf.copyOut dst len
          let (rest, buf) ← readFrom dst fuel len buf
          return (⟨bytes ++ rest.bytes, rest.ok⟩, buf)
        else some (⟨[], false⟩, buf)

/-- Every round but the last one copies a byte. -/
def read (buf : Rdbuf) (dst : Bool) (len : UInt32) : Option (Answer × Rdbuf) :=
  readFrom dst (len.toNat + 1) len buf

/-- A request: whether there is a pointer, and the number of bytes. -/
structure Request where
  dst : Bool
  len : UInt32
deriving Repr, DecidableEq

/-- Calls one after another; `count()` is read after each of them. -/
def readAll : List Request → Rdbuf → Option (List (Answer × UInt64) × Rdbuf)
  | [], buf => some ([], buf)
  | request :: requests, buf => do
      let (answer, buf) ← buf.read request.dst request.len
      let (answers, last) ← readAll requests buf
      return ((answer, buf.count) :: answers, last)

/-! ## The stream behind the buffer -/

/-- What `::read` may deliver into a buffer of this size: chunks that are not
empty and fit. -/
def Delivers (capacity : UInt32) (input : List (List UInt8)) : Prop :=
  ∀ chunk ∈ input, chunk ≠ [] ∧ chunk.length ≤ capacity.toNat

/-- The available data lies inside the buffer. -/
structure Sound (buf : Rdbuf) : Prop where
  memory : buf.data.length = buf.capacity.toNat
  inside : buf.head.toNat + buf.size.toNat ≤ buf.capacity.toNat
  input : Delivers buf.capacity buf.input

/-- The bytes that were not consumed yet, in the buffer and in the file. -/
def pending (buf : Rdbuf) : List UInt8 :=
  readAt buf.data buf.head.toNat buf.size.toNat ++ buf.input.flatten

variable {buf after : Rdbuf} {capacity : UInt32}

theorem create_sound {data : List UInt8} {input : List (List UInt8)}
    (memory : data.length = capacity.toNat) (delivers : Delivers capacity input) :
    (create capacity data input).Sound where
  memory := memory
  inside := Nat.zero_le _
  input := delivers

theorem create_pending (data : List UInt8) (input : List (List UInt8)) :
    (create capacity data input).pending = input.flatten := rfl

theorem readAt_length {memory : List UInt8} {offset count : Nat}
    (inside : offset + count ≤ memory.length) : (readAt memory offset count).length = count := by
  rw [readAt, List.length_take, List.length_drop]
  omega

/-- The pending bytes around a place in the buffered part. -/
theorem Sound.pending_split (sound : buf.Sound) {n : Nat} (within : n ≤ buf.size.toNat) :
    buf.pending = readAt buf.data buf.head.toNat n ++
      (readAt buf.data (buf.head.toNat + n) (buf.size.toNat - n) ++ buf.input.flatten) ∧
      (readAt buf.data buf.head.toNat n).length = n := by
  have inside := sound.inside
  refine ⟨?_, readAt_length (by rw [sound.memory]; omega)⟩
  rw [← List.append_assoc, ← readAt_add, Nat.add_sub_of_le within]
  rfl

/-- What a copy of `n` bytes does. -/
structure Copied (buf : Rdbuf) (dst : Bool) (len : UInt32) (n : Nat) : Prop where
  positive : 0 < n
  within : n ≤ len.toNat
  available : n ≤ buf.pending.length
  bytes : (buf.copyOut dst len).1 = if dst then buf.pending.take n else []
  left : (buf.copyOut dst len).2.1.toNat = len.toNat - n
  sound : (buf.copyOut dst len).2.2.Sound
  pending : (buf.copyOut dst len).2.2.pending = buf.pending.drop n
  count : (buf.copyOut dst len).2.2.count = buf.count + UInt64.ofNat n

theorem Sound.copyOut_spec (sound : buf.Sound) (dst : Bool) {len : UInt32} (wanted : len ≠ 0)
    (filled : buf.size ≠ 0) : ∃ n, buf.Copied dst len n := by
  have inside := sound.inside
  have room := buf.capacity.toNat_lt
  let n := if len < buf.size then len else buf.size
  have wanted' : len.toNat ≠ 0 := fun zero => wanted (UInt32.toNat_inj.mp zero)
  have filled' : buf.size.toNat ≠ 0 := fun zero => filled (UInt32.toNat_inj.mp zero)
  have nEq : n.toNat = min len.toNat buf.size.toNat := by
    simp only [n]
    split
    · rename_i shorter
      rw [UInt32.lt_iff_toNat_lt] at shorter
      omega
    · rename_i longer
      rw [UInt32.lt_iff_toNat_lt] at longer
      omega
  have left : (len - n).toNat = len.toNat - n.toNat :=
    UInt32.toNat_sub_of_le _ _ (UInt32.le_iff_toNat_le.mpr (by omega))
  have size : (buf.size - n).toNat = buf.size.toNat - n.toNat :=
    UInt32.toNat_sub_of_le _ _ (UInt32.le_iff_toNat_le.mpr (by omega))
  have head : (buf.head + n).toNat = buf.head.toNat + n.toNat := by
    rw [UInt32.toNat_add]
    exact Nat.mod_eq_of_lt (by omega)
  obtain ⟨split, length⟩ := sound.pending_split (show n.toNat ≤ buf.size.toNat by omega)
  refine ⟨n.toNat, ?_⟩
  constructor
  · omega
  · omega
  · rw [split, List.length_append, length]
    exact Nat.le_add_right _ _
  · rw [split, List.take_left' length]
    rfl
  · exact left
  · refine ⟨sound.memory, ?_, sound.input⟩
    change (buf.head + n).toNat + (buf.size - n).toNat ≤ buf.capacity.toNat
    omega
  · rw [split, List.drop_left' length, ← head, ← size]
    rfl
  · change buf.count + n.toUInt64 = _
    rw [← UInt64.ofNat_uInt32ToNat]

/-- Before a copy the buffer holds a byte, or the file has ended. -/
theorem Sound.refill_spec (sound : buf.Sound) :
    (buf.pending = [] ∧ (if buf.size = 0 then buf.readIn else (true, buf)) = (false, buf)) ∨
      ∃ next, (if buf.size = 0 then buf.readIn else (true, buf)) = (true, next) ∧ next.Sound ∧
        next.size ≠ 0 ∧ next.pending = buf.pending ∧ next.count = buf.count := by
  by_cases drained : buf.size = 0
  · rw [if_pos drained]
    have empty : buf.pending = buf.input.flatten := by
      rw [pending, drained]
      exact List.nil_append _
    cases input : buf.input with
    | nil =>
        left
        rw [empty, readIn, input]
        exact ⟨rfl, rfl⟩
    | cons chunk rest =>
        right
        have delivers := sound.input
        rw [input] at delivers
        obtain ⟨nonempty, fits⟩ := delivers chunk List.mem_cons_self
        have stored : ¬ chunk.length = 0 := fun none => nonempty (List.length_eq_zero_iff.mp none)
        have size : (UInt32.ofNat chunk.length).toNat = chunk.length := by
          rw [UInt32.toNat_ofNat']
          exact Nat.mod_eq_of_lt (Nat.lt_of_le_of_lt fits buf.capacity.toNat_lt)
        refine ⟨{ buf with
          data := chunk ++ buf.data.drop chunk.length
          head := 0
          size := UInt32.ofNat chunk.length
          input := rest }, ?_, ⟨?_, ?_, ?_⟩, ?_, ?_, rfl⟩
        · rw [readIn, input]
          exact if_neg stored
        · have memory := sound.memory
          simp only [List.length_append, List.length_drop]
          omega
        · change 0 + (UInt32.ofNat chunk.length).toNat ≤ _
          rw [size, Nat.zero_add]
          exact fits
        · exact fun other member => delivers other (List.mem_cons_of_mem _ member)
        · intro zero
          rw [← UInt32.toNat_inj, size] at zero
          exact stored zero
        · rw [empty, input, List.flatten_cons, pending, size]
          change (List.drop 0 _).take _ ++ _ = _
          rw [List.drop_zero, List.take_left' rfl]
  · right
    refine ⟨buf, ?_, sound, drained, rfl, rfl⟩
    rw [if_neg drained]

/-- A call consumes as many of the requested bytes as there are. -/
theorem readFrom_spec (sound : buf.Sound) (dst : Bool) {fuel : Nat} {len : UInt32}
    (rounds : len.toNat < fuel) :
    ∃ after, readFrom dst fuel len buf = some (⟨if dst then buf.pending.take len.toNat else [],
        decide (len.toNat ≤ buf.pending.length)⟩, after) ∧
      after.Sound ∧ after.pending = buf.pending.drop len.toNat ∧
      after.count = buf.count + UInt64.ofNat (min len.toNat buf.pending.length) := by
  induction fuel generalizing len buf with
  | zero => omega
  | succ fuel ih =>
      rw [readFrom]
      by_cases done : len = 0
      · refine ⟨buf, ?_, sound, ?_, ?_⟩
        · rw [if_pos done, done]
          simp
        · rw [done]
          rfl
        · rw [done]
          simp
      · rw [if_neg done]
        rcases sound.refill_spec with ⟨drained, ended⟩ | ⟨next, filled, ready, size, same, counted⟩
        · refine ⟨buf, ?_, sound, ?_, ?_⟩
          · have short : ¬ len.toNat ≤ 0 := fun zero =>
              done (UInt32.toNat_inj.mp (Nat.le_zero.mp zero))
            simp [ended, drained, short]
          · rw [drained, List.drop_nil]
          · rw [drained, List.length_nil, Nat.min_zero]
            exact (UInt64.add_zero _).symm
        · obtain ⟨n, copied⟩ := ready.copyOut_spec dst done size
          have within := copied.within
          have available := copied.available
          have left := copied.left
          obtain ⟨last, rest, sound', pending', count'⟩ := @ih (next.copyOut dst len).2.2
            copied.sound (next.copyOut dst len).2.1 (by have positive := copied.positive; omega)
          rw [copied.pending, left] at rest pending' count'
          rw [same] at available rest pending' count'
          refine ⟨last, ?_, sound', ?_, ?_⟩
          · have answer : (if dst then buf.pending.take n else []) ++
                (if dst then (buf.pending.drop n).take (len.toNat - n) else []) =
                  if dst then buf.pending.take len.toNat else [] := by
              split
              · rw [← List.take_add, Nat.add_sub_of_le within]
              · rfl
            have ok : (len.toNat - n ≤ (buf.pending.drop n).length) =
                (len.toNat ≤ buf.pending.length) := by
              rw [List.length_drop]
              exact propext ⟨fun _ => by omega, fun _ => by omega⟩
            have bytes := copied.bytes
            rw [same] at bytes
            simp only [filled, if_true, rest, bytes, Option.bind_eq_bind, Option.bind_some, answer, ok]
            rfl
          · rw [pending', List.drop_drop, Nat.add_sub_of_le within]
          · rw [count', copied.count, counted, List.length_drop, UInt64.add_assoc, ← UInt64.ofNat_add]
            congr 2
            omega

theorem Sound.read_spec (sound : buf.Sound) (request : Request) :
    ∃ after, buf.read request.dst request.len =
        some (⟨if request.dst then buf.pending.take request.len.toNat else [],
          decide (request.len.toNat ≤ buf.pending.length)⟩, after) ∧
      after.Sound ∧ after.pending = buf.pending.drop request.len.toNat ∧
      after.count = buf.count + UInt64.ofNat (min request.len.toNat buf.pending.length) :=
  readFrom_spec sound request.dst (Nat.lt_succ_self _)

/-- How much of a stream some requests consume. -/
def consumed (stream : List UInt8) (requests : List Request) : Nat :=
  min (requests.map fun request => request.len.toNat).sum stream.length

theorem consumed_snoc (stream : List UInt8) (earlier : List Request) (request : Request) :
    consumed stream (earlier ++ [request]) = consumed stream earlier +
      min request.len.toNat (stream.drop (consumed stream earlier)).length := by
  simp only [consumed, List.map_append, List.sum_append, List.map_cons, List.map_nil, List.sum_cons,
    List.sum_nil, List.length_drop]
  omega

theorem drop_consumed_snoc (stream : List UInt8) (earlier : List Request) (request : Request) :
    stream.drop (consumed stream (earlier ++ [request])) =
      (stream.drop (consumed stream earlier)).drop request.len.toNat := by
  rw [consumed_snoc, ← List.drop_drop]
  rcases Nat.le_total request.len.toNat (stream.drop (consumed stream earlier)).length with
    whole | short
  · rw [Nat.min_eq_left whole]
  · rw [Nat.min_eq_right short, List.drop_length, List.drop_of_length_le short]

/-- The answer to a request behind earlier ones, and the count after it. -/
def expected (stream : List UInt8) (earlier : List Request) (request : Request) :
    Answer × UInt64 :=
  let rest := stream.drop (consumed stream earlier)
  (⟨if request.dst then rest.take request.len.toNat else [],
    decide (request.len.toNat ≤ rest.length)⟩,
    UInt64.ofNat (consumed stream (earlier ++ [request])))

/-- A run that starts behind `earlier` requests; the buffer keeps the rest of
the stream, and the count follows it. -/
theorem Sound.readAll_spec {stream : List UInt8} (sound : buf.Sound) (requests : List Request)
    {earlier : List Request} (rest : buf.pending = stream.drop (consumed stream earlier))
    (counted : buf.count = UInt64.ofNat (consumed stream earlier)) :
    ∃ answers last, readAll requests buf = some (answers, last) ∧
      answers.length = requests.length ∧
      ∀ index request, requests[index]? = some request →
        answers[index]? = some (expected stream (earlier ++ requests.take index) request) := by
  induction requests generalizing buf earlier with
  | nil =>
      refine ⟨[], buf, rfl, rfl, ?_⟩
      intro index request found
      simp at found
  | cons first requests ih =>
      obtain ⟨next, answered, sound', pending, count⟩ := sound.read_spec first
      rw [rest] at answered pending count
      rw [← drop_consumed_snoc] at pending
      rw [counted, ← UInt64.ofNat_add, ← consumed_snoc] at count
      obtain ⟨answers, last, ran, length, each⟩ := ih sound' pending count
      have now : expected stream earlier first = (⟨if first.dst then
          (stream.drop (consumed stream earlier)).take first.len.toNat else [],
          decide (first.len.toNat ≤ (stream.drop (consumed stream earlier)).length)⟩, next.count) := by
        rw [count]
        rfl
      refine ⟨expected stream earlier first :: answers, last, ?_, ?_, ?_⟩
      · simp only [readAll, answered, ran, now, Option.bind_eq_bind, Option.bind_some]
        rfl
      · rw [List.length_cons, List.length_cons, length]
      · intro index request found
        cases index with
        | zero =>
            cases found
            rw [List.take_zero, List.append_nil]
            rfl
        | succ index =>
            have behind := each index request found
            rwa [List.append_assoc] at behind

/-- Reading through the buffer is reading the stream: every call returns, it
stores the bytes behind those consumed before, it fails only where fewer are
left, and `count()` is the number of bytes consumed. -/
theorem reads_are_transparent {data : List UInt8} {input : List (List UInt8)}
    (memory : data.length = capacity.toNat) (delivers : Delivers capacity input)
    (requests : List Request) :
    ∃ answers last, readAll requests (create capacity data input) = some (answers, last) ∧
      answers.length = requests.length ∧
      ∀ index request, requests[index]? = some request →
        answers[index]? = some (expected input.flatten (requests.take index) request) := by
  have start : consumed input.flatten [] = 0 := Nat.zero_min _
  apply @Sound.readAll_spec _ input.flatten (create_sound memory delivers) requests []
  · rw [start]
    exact create_pending data input
  · rw [start]
    rfl

/-- Two chunks, a request across both, a skip, and one past the end. -/
theorem reads_are_transparent_chunks : ∃ answers last,
    readAll [⟨true, 3⟩, ⟨false, 1⟩, ⟨true, 4⟩] (create 4 [9, 9, 9, 9] [[1, 2], [3, 4, 5]]) =
      some (answers, last) ∧ answers.length = 3 ∧
    ∀ index request, [⟨true, 3⟩, ⟨false, 1⟩, ⟨true, 4⟩][index]? = some request →
      answers[index]? = some (expected [1, 2, 3, 4, 5]
        ([⟨true, 3⟩, ⟨false, 1⟩, ⟨true, 4⟩].take index) request) :=
  reads_are_transparent rfl (by unfold Delivers; decide) _

end Rdbuf

end Hogl.Raw
