import Hogl.Data.Requests
import Hogl.Data.Runs
import Hogl.Raw.Rdbuf
import Hogl.Raw.Truncation

namespace Hogl.Raw

open Hogl.Data

/-! # Following a log

`hogl-cook` with `--tailf`: `file_rdbuf` of `tools/rdbuf.cc` waits at the end of
the file for the kernel to announce that it was modified.  Programs append to
the file meanwhile, and an announcement comes some time after the bytes.
-/

/-! ## What the parser asks for -/

/-- The requests of `read_blob` and `read_str`. -/
def wantBlob (width : Nat) : Reader UInt8 (List UInt8) := do
  let len ← ask width
  ask (leValue len)

def Field.want : Field → Reader UInt8 (List UInt8)
  | .text => wantBlob 2
  | .block width => wantBlob width
  | .word width => ask width

def wantArgs (version : Version) (argtype : BitVec 64) : Nat → Nat → Reader UInt8 Unit
  | 0, _ => pure ()
  | count + 1, index =>
      if typeIn argtype index = .none then pure ()
      else do
        let _ ← (Field.ofType version (typeIn argtype index)).want
        wantArgs version argtype count (index + 1)

/-- The requests of `next` for one record. -/
def wants (version : Version) : Reader UInt8 Unit := do
  let _ ← ask 8
  let _ ← ask 8
  let _ ← wantBlob 1
  let _ ← wantBlob 1
  let _ ← wantBlob 1
  let argtype ← ask 8
  wantArgs version (BitVec.ofNat 64 (leValue argtype)) Record.nargs 0

/-- The largest request, for a blob whose length has four bytes. -/
def largestRequest : Nat := 2 ^ 32 - 1

section Wants

variable {version : Version} {input rest : List UInt8} {width : Nat}

theorem steady_ask_word (narrow : width ≤ 8) : (ask width).Steady (α := UInt8) largestRequest :=
  Reader.steady_ask (Nat.le_trans narrow (by decide))

theorem steady_wantBlob (narrow : width ≤ 4) : (wantBlob width).Steady largestRequest := by
  refine (steady_ask_word (by omega)).bind fun input len rest taken => Reader.steady_ask ?_
  obtain ⟨-, rfl, -⟩ := ask_eq_ok taken
  have bound := Parser.announced_lt width input
  have widest : 256 ^ width ≤ 256 ^ 4 := Nat.pow_le_pow_right (by decide) narrow
  have below : announced width input < 2 ^ 32 := Nat.lt_of_lt_of_le bound widest
  exact Nat.le_pred_of_lt below

theorem steady_want (type : ArgType) :
    (Field.ofType version type).want.Steady largestRequest := by
  cases field : Field.ofType version type with
  | text => exact steady_wantBlob (by decide)
  | block width =>
      obtain ⟨-, rfl⟩ := Parser.ofType_block field
      exact steady_wantBlob (by cases version <;> decide)
  | word width => exact steady_ask_word (by cases type <;> simp [Field.ofType] at field <;> omega)

theorem steady_wantArgs (argtype : BitVec 64) (count index : Nat) :
    (wantArgs version argtype count index).Steady largestRequest := by
  induction count generalizing index with
  | zero => exact Reader.steady_pure ()
  | succ count ih =>
      rw [wantArgs]
      split
      · exact Reader.steady_pure ()
      · exact (steady_want _).bind fun _ _ _ _ => ih (index + 1)

theorem steady_wants (version : Version) : (wants version).Steady largestRequest :=
  (steady_ask_word (by decide)).bind fun _ _ _ _ =>
  (steady_ask_word (by decide)).bind fun _ _ _ _ =>
  (steady_wantBlob (by decide)).bind fun _ _ _ _ =>
  (steady_wantBlob (by decide)).bind fun _ _ _ _ =>
  (steady_wantBlob (by decide)).bind fun _ _ _ _ =>
  (steady_ask_word (by decide)).bind fun _ _ _ _ => steady_wantArgs _ _ _

theorem ask_word (found : wordEnd width input = some rest) :
    ask width input = .ok (input.take width, rest) := by
  obtain ⟨enough, rfl⟩ := wordEnd_eq_some found
  exact ask_enough enough

theorem ask_missing (nowhere : wordEnd width input = none) :
    ∃ missing, ask width input = .error missing := by
  refine ⟨_, ask_short (Nat.lt_of_not_le fun enough => ?_)⟩
  rw [wordEnd, if_pos enough] at nowhere
  cases nowhere

theorem wantBlob_complete (complete : Complete width input) :
    wantBlob width input = .ok ((body width input).take (announced width input),
      behind width input) := by
  rw [wantBlob, Reader.bind_taken (ask_enough complete.1)]
  exact ask_enough complete.2

theorem wantBlob_missing (cut : ¬ Complete width input) :
    ∃ missing, wantBlob width input = .error missing := by
  rw [wantBlob]
  by_cases enough : width ≤ input.length
  · rw [Reader.bind_taken (ask_enough enough)]
    exact ⟨_, ask_short (Nat.lt_of_not_le fun all => cut ⟨enough, all⟩)⟩
  · exact ⟨_, Reader.bind_missing (ask_short (Nat.lt_of_not_le enough))⟩

theorem want_whole {field : Field} (whole : field.Whole input) :
    ∃ value, field.want input = .ok (value, field.rest input) := by
  cases field with
  | text => exact ⟨_, wantBlob_complete whole⟩
  | block width => exact ⟨_, wantBlob_complete whole⟩
  | word width => exact ⟨_, ask_enough whole⟩

theorem want_missing {field : Field} (cut : ¬ field.Whole input) :
    ∃ missing, field.want input = .error missing := by
  cases field with
  | text => exact wantBlob_missing cut
  | block width => exact wantBlob_missing cut
  | word width => exact ⟨_, ask_short (Nat.lt_of_not_le cut)⟩

theorem wantArgs_whole {argtype : BitVec 64} {count index : Nat}
    (found : argsEnd version argtype count index input = some rest) :
    wantArgs version argtype count index input = .ok ((), rest) := by
  induction count generalizing index input with
  | zero =>
      cases found
      rfl
  | succ count ih =>
      rw [argsEnd] at found
      rw [wantArgs]
      split at found
      · rename_i unset
        cases found
        rw [if_pos unset]
        rfl
      · rename_i set
        simp only at found
        split at found
        · rename_i whole
          obtain ⟨value, taken⟩ := want_whole whole
          rw [if_neg set, Reader.bind_taken taken]
          exact ih found
        · cases found

theorem wantArgs_missing {argtype : BitVec 64} {count index : Nat}
    (nowhere : argsEnd version argtype count index input = none) :
    ∃ missing, wantArgs version argtype count index input = .error missing := by
  induction count generalizing index input with
  | zero => cases nowhere
  | succ count ih =>
      rw [argsEnd] at nowhere
      rw [wantArgs]
      split at nowhere
      · cases nowhere
      · rename_i set
        simp only at nowhere
        rw [if_neg set]
        split at nowhere
        · rename_i whole
          obtain ⟨value, taken⟩ := want_whole whole
          rw [Reader.bind_taken taken]
          exact ih nowhere
        · rename_i cut
          obtain ⟨missing, short⟩ := want_missing cut
          exact ⟨missing, Reader.bind_missing short⟩

theorem wantBlob_name (found : nameEnd input = some rest) :
    ∃ name, wantBlob 1 input = .ok (name, rest) := by
  rw [nameEnd] at found
  split at found
  · rename_i accepted
    cases found
    exact ⟨_, wantBlob_complete accepted.1⟩
  · cases found

/-- The requests for a record end where the record does. -/
theorem wants_record (found : recordEnd version input = some rest) :
    wants version input = .ok ((), rest) := by
  simp only [recordEnd, argSection, headerEnd, Option.bind_eq_bind, Option.bind_eq_some_iff,
    Option.pure_def, Option.some.injEq] at found
  obtain ⟨⟨argtype, args⟩, ⟨first, time, header, ⟨second, number, third, ring, fourth, area, sect⟩,
    fifth, types, pair⟩, ended⟩ := found
  cases pair
  obtain ⟨_, ringAsked⟩ := wantBlob_name ring
  obtain ⟨_, areaAsked⟩ := wantBlob_name area
  obtain ⟨_, sectAsked⟩ := wantBlob_name sect
  rw [wants, Reader.bind_taken (ask_word time), Reader.bind_taken (ask_word number),
    Reader.bind_taken ringAsked, Reader.bind_taken areaAsked, Reader.bind_taken sectAsked,
    Reader.bind_taken (ask_word types)]
  exact wantArgs_whole ended

/-- A name that is not accepted is invalid, or some of it is missing. -/
theorem wantBlob_cut {names : Nat} (nowhere : nameEnd input = none)
    (valid : invalidNames (names + 1) input = false) :
    ∃ missing, wantBlob 1 input = .error missing := by
  rw [invalidNames, nowhere] at valid
  exact wantBlob_missing (of_decide_eq_false valid)

theorem wants_missing (nowhere : recordEnd version input = none)
    (valid : invalidName input = false) : ∃ missing, wants version input = .error missing := by
  rw [wants]
  rw [invalidName] at valid
  cases time : wordEnd 8 input with
  | none =>
      obtain ⟨missing, short⟩ := ask_missing time
      exact ⟨missing, Reader.bind_missing short⟩
  | some first =>
      simp only [time, invalidHeader] at valid
      rw [Reader.bind_taken (ask_word time)]
      cases number : wordEnd 8 first with
      | none =>
          obtain ⟨missing, short⟩ := ask_missing number
          exact ⟨missing, Reader.bind_missing short⟩
      | some second =>
          simp only [number] at valid
          rw [Reader.bind_taken (ask_word number)]
          cases ring : nameEnd second with
          | none =>
              obtain ⟨missing, short⟩ := wantBlob_cut ring valid
              exact ⟨missing, Reader.bind_missing short⟩
          | some third =>
              rw [invalidNames, ring] at valid
              obtain ⟨_, ringAsked⟩ := wantBlob_name ring
              rw [Reader.bind_taken ringAsked]
              cases area : nameEnd third with
              | none =>
                  obtain ⟨missing, short⟩ := wantBlob_cut area valid
                  exact ⟨missing, Reader.bind_missing short⟩
              | some fourth =>
                  simp only [invalidNames, area] at valid
                  obtain ⟨_, areaAsked⟩ := wantBlob_name area
                  rw [Reader.bind_taken areaAsked]
                  cases sect : nameEnd fourth with
                  | none =>
                      simp only [sect] at valid
                      obtain ⟨missing, short⟩ := wantBlob_missing (of_decide_eq_false valid)
                      exact ⟨missing, Reader.bind_missing short⟩
                  | some fifth =>
                      obtain ⟨_, sectAsked⟩ := wantBlob_name sect
                      rw [Reader.bind_taken sectAsked]
                      cases types : wordEnd 8 fifth with
                      | none =>
                          obtain ⟨missing, short⟩ := ask_missing types
                          exact ⟨missing, Reader.bind_missing short⟩
                      | some args =>
                          rw [Reader.bind_taken (ask_word types)]
                          refine wantArgs_missing ?_
                          simpa only [recordEnd, argSection, headerEnd, time, number, ring, area,
                            sect, types, Option.bind_eq_bind, Option.bind_some, Option.pure_def,
                            announced] using nowhere

/-- Where the input ends in the middle of a record, some of a request is
missing. -/
theorem wants_cut {maxRecordSize : Nat} (cut : reading version maxRecordSize input = .ended ∨
      reading version maxRecordSize input = .cut) :
    ∃ missing, wants version input = .error missing := by
  rcases cut with ended | cut
  · rw [wants, Reader.bind_missing (ask_short (Nat.lt_of_not_le fun enough => ?_))]
    · exact ⟨_, rfl⟩
    · rw [reading, if_neg (Nat.not_lt.mpr enough)] at ended
      split at ended
      · cases ended
      split at ended
      · cases ended
      split at ended <;> cases ended
  · rw [reading] at cut
    split at cut
    · cases cut
    split at cut
    · cases cut
    split at cut
    · cases cut
    rename_i nowhere
    split at cut
    · cases cut
    · rename_i valid
      exact wants_missing nowhere (Bool.eq_false_iff.mpr valid)

end Wants

/-! ## The follower, the file and the kernel -/

/-- Where `hogl-cook` stands: before `inotify_add_watch`, in `next` between two
requests, or in a `read` of which `len` bytes are left, before its next copy,
before `::read` of the file, or in `::read` of the announcements. -/
inductive FollowPc where
  | watching
  | parsing
  | copying (len : UInt32)
  | filling (len : UInt32)
  | sleeping (len : UInt32)
  | stopped
deriving Repr, DecidableEq

/-- A file with the announcements of its changes, and `hogl-cook` behind
`lseek`.  `due` counts the calls of `write` that were not announced yet.  The
input of the parser is what was copied out since the last record. -/
structure Follower where
  file : List UInt8
  due : Nat
  watched : Bool
  events : Nat
  start : Nat
  position : Nat
  pc : FollowPc
  buf : Rdbuf
  parser : Parser
  emitted : List FormatData

/-- Some program appends to the file, the kernel announces it, in one event with
an earlier one or on its own, or `hogl-cook` takes a step; `most` bounds what
`::read` returns. -/
inductive FollowAction where
  | append (bytes : List UInt8)
  | announce (merged : Bool)
  | step (most : Nat)

/-- The bytes that an action appends to the file. -/
def FollowAction.bytes : FollowAction → List UInt8
  | .append bytes => bytes
  | _ => []

namespace Follower

/-- `lseek` has gone to the end of the file. -/
def create {settings : Cook.Settings} (memory : Cook.Memory settings) (capacity : UInt32)
    (data file : List UInt8) : Follower where
  file
  due := 0
  watched := false
  events := 0
  start := file.length
  position := file.length
  pc := .watching
  buf := .create capacity data []
  parser := memory.parser []
  emitted := []

/-- `next`, as far as the bytes that it was given take it. -/
def parse (version : Version) (state : Follower) : Follower :=
  match state.parser.next version with
  | some (some data, parser) => { state with parser, emitted := state.emitted ++ [data] }
  | some (none, parser) =>
      if parser.failed && parser.blamesFormat then { state with pc := .stopped }
      else
        match wants version state.parser.input with
        | .error missing => { state with pc := .copying (UInt32.ofNat missing) }
        | .ok _ => { state with pc := .stopped }
  | none => { state with pc := .stopped }

/-- One round of the loop in `read`, down to `read_in` or `copy_out`. -/
def copy (state : Follower) (len : UInt32) : Follower :=
  if len = 0 then { state with pc := .parsing }
  else if state.buf.size = 0 then { state with pc := .filling len }
  else
    let (bytes, len, buf) := state.buf.copyOut true len
    { state with buf, parser.input := state.parser.input ++ bytes, pc := .copying len }

/-- What `::read` returns of the file. -/
def chunk (state : Follower) (most : Nat) : List UInt8 :=
  (state.file.drop state.position).take (min (max most 1) state.buf.capacity.toNat)

/-- The first half of `read_in`. -/
def fill (state : Follower) (len : UInt32) (most : Nat) : Follower :=
  match { state.buf with input := [state.chunk most] }.readIn with
  | (true, buf) =>
      { state with buf, position := state.position + (state.chunk most).length, pc := .copying len }
  | (false, buf) => { state with buf, pc := .sleeping len }

/-- How many events fit into the buffer of `read_in`, which has room for one
with the longest name; the events of a file have none. -/
def eventsAtOnce : Nat := (16 + 255 + 1) / 16

/-- The second half of `read_in`, which returns when there is an event. -/
def sleep (state : Follower) (len : UInt32) : Follower :=
  if state.events = 0 then state
  else { state with events := state.events - eventsAtOnce, pc := .filling len }

def step (version : Version) (state : Follower) (most : Nat) : Follower :=
  match state.pc with
  | .watching => { state with watched := true, pc := .parsing }
  | .parsing => state.parse version
  | .copying len => state.copy len
  | .filling len => state.fill len most
  | .sleeping len => state.sleep len
  | .stopped => state

def announce (state : Follower) (merged : Bool) : Follower :=
  { state with
    due := state.due - 1
    events :=
      if state.watched = false ∨ merged = true ∧ state.events ≠ 0 then state.events
      else state.events + 1 }

def act (version : Version) (state : Follower) : FollowAction → Follower
  | .append bytes => { state with file := state.file ++ bytes, due := state.due + 1 }
  | .announce merged => state.announce merged
  | .step most => state.step version most

def after (version : Version) (state : Follower) (actions : List FollowAction) : Follower :=
  runs (act version) state actions

/-- What was appended since the follower went to the end of the file. -/
def appended (state : Follower) : List UInt8 := state.file.drop state.start

/-- The follower waits for an event, and none is there. -/
def Asleep (state : Follower) : Prop := (∃ len, state.pc = .sleeping len) ∧ state.events = 0

/-- The records that were handed to the format are the first of `items`, and all
of them are in the file. -/
def Shows (strings : UInt64 → List UInt8) (items : List FormatData) (state : Follower) : Prop :=
  ∃ whole missing, items = whole ++ missing ∧
    List.Forall₂ (SameRecord strings) whole state.emitted ∧
    whole.flatMap (pack strings) <+: state.appended

/-- Every record that is in the file as a whole was handed to the format. -/
def CaughtUp (strings : UInt64 → List UInt8) (items : List FormatData) (state : Follower) : Prop :=
  ∃ whole missing left, items = whole ++ missing ∧
    List.Forall₂ (SameRecord strings) whole state.emitted ∧
    state.appended = whole.flatMap (pack strings) ++ left ∧ (missing = [] → left = []) ∧
    ∀ next ∈ missing.head?, left <+: pack strings next ∧ left ≠ pack strings next

/-- A bound on the steps that the follower takes until it sleeps. -/
def weight : FollowPc → Nat
  | .watching => 5
  | .copying len => if len = 0 then 4 else 2
  | .parsing => 3
  | .filling _ => 1
  | .sleeping _ | .stopped => 0

def remaining (state : Follower) : Nat :=
  6 * (state.file.length - state.position) + 4 * state.buf.size.toNat +
    state.parser.input.length + 2 * state.events + weight state.pc

/-! ## What every state keeps -/

/-- What the place of the follower says.  A request that is not met yet is not
more than the parser still wants, and a sleeping follower has read the file to
its end or will be woken. -/
def Stands (version : Version) (state : Follower) : Prop :=
  match state.pc with
  | .watching => True
  | .parsing | .stopped => state.watched = true
  | .copying len => state.watched = true ∧
      (len ≠ 0 → wants version state.parser.input = .error len.toNat)
  | .filling len => state.watched = true ∧ state.buf.size = 0 ∧
      wants version state.parser.input = .error len.toNat
  | .sleeping len => state.watched = true ∧ state.buf.size = 0 ∧
      wants version state.parser.input = .error len.toNat ∧
      (state.position < state.file.length → 0 < state.events ∨ 0 < state.due)

structure Sound (settings : Cook.Settings) (state : Follower) : Prop where
  buf : state.buf.Sound
  drained : state.buf.input = []
  room : 0 < state.buf.capacity.toNat
  ready : state.parser.Ready settings.maxRecordSize.toNat
  clean : state.parser.Clean
  started : state.start ≤ state.position
  inside : state.position ≤ state.file.length
  place : state.Stands settings.version

variable {settings : Cook.Settings} {state : Follower} {len : UInt32}

theorem create_sound (memory : Cook.Memory settings) {capacity : UInt32} (room : 0 < capacity.toNat)
    {data : List UInt8} (allocated : data.length = capacity.toNat) (file : List UInt8) :
    (create memory capacity data file).Sound settings where
  buf := Rdbuf.create_sound allocated fun _ none => absurd none List.not_mem_nil
  drained := rfl
  room := room
  ready := memory.ready []
  clean := memory.clean []
  started := Nat.le_refl _
  inside := Nat.le_refl _
  place := trivial

theorem Sound.append (sound : state.Sound settings) (bytes : List UInt8) :
    { state with file := state.file ++ bytes, due := state.due + 1 : Follower }.Sound settings := by
  refine { sound with inside := ?_, place := ?_ }
  · exact sound.inside.trans (List.prefix_append _ _).length_le
  · have place := sound.place
    unfold Stands at place ⊢
    cases pc : state.pc with
    | sleeping len =>
        rw [pc] at place
        exact ⟨place.1, place.2.1, place.2.2.1, fun _ => .inr (Nat.succ_pos _)⟩
    | watching | parsing | copying | filling | stopped =>
        rw [pc] at place
        exact place

theorem Sound.announce (sound : state.Sound settings) (merged : Bool) :
    (state.announce merged).Sound settings := by
  refine { sound with place := ?_ }
  have place := sound.place
  unfold Stands at place ⊢
  cases pc : state.pc with
  | sleeping len =>
      rw [pc] at place
      obtain ⟨watched, empty, wanted, woken⟩ := place
      simp only [Follower.announce, pc]
      refine ⟨watched, empty, wanted, fun unread => .inl ?_⟩
      split
      · rename_i merges
        rw [watched] at merges
        exact Nat.pos_of_ne_zero (by simpa using merges.elim (fun no => nomatch no) And.right)
      · exact Nat.succ_pos _
  | watching | parsing | copying | filling | stopped =>
      rw [pc] at place
      simpa only [Follower.announce, pc] using place

theorem toNat_missing {version : Version} {input : List UInt8} {missing : Nat}
    (short : wants version input = .error missing) :
    (UInt32.ofNat missing).toNat = missing := by
  obtain ⟨-, few, -⟩ := (steady_wants version).missing short
  rw [UInt32.toNat_ofNat', Nat.mod_eq_of_lt (Nat.lt_of_le_of_lt few (by decide))]

/-- `next` returns a record, or the follower asks for more, or it stops. -/
theorem Sound.parse (sound : state.Sound settings) (pc : state.pc = .parsing)
    (least : Record.byteSize ≤ settings.maxRecordSize.toNat) :
    (state.parse settings.version).Sound settings := by
  have watched : state.watched = true := by
    have place := sound.place
    rwa [Stands, pc] at place
  have follows := Parser.next_follows settings.version sound.ready least
    settings.maxRecordSize.toNat_lt sound.clean
  have stop : { state with pc := .stopped : Follower }.Sound settings :=
    { sound with place := watched }
  have more (parser : Parser) (called : state.parser.next settings.version = some (none, parser)) :
      (state.parse settings.version).Sound settings := by
    simp only [Follower.parse, called]
    split
    · exact stop
    · split
      · rename_i missing short
        exact { sound with place := ⟨watched, fun _ => by rw [toNat_missing short]; exact short⟩ }
      · exact stop
  cases read : reading settings.version settings.maxRecordSize.toNat state.parser.input with
  | record rest =>
      rw [read] at follows
      obtain ⟨data, after, called, clean, ready, -⟩ := follows
      simp only [Follower.parse, called]
      refine { sound with ready, clean, place := ?_ }
      simpa only [Stands, pc] using watched
  | ended | invalid | cut =>
      rw [read] at follows
      obtain ⟨after, called, -⟩ := follows
      exact more after called
  | overrun =>
      rw [read] at follows
      have called : state.parser.next settings.version = none := follows
      simp only [Follower.parse, called]
      exact stop

theorem Sound.copy (sound : state.Sound settings) (pc : state.pc = .copying len) :
    (state.copy len).Sound settings := by
  have place := sound.place
  rw [Stands, pc] at place
  obtain ⟨watched, wanted⟩ := place
  rw [Follower.copy]
  by_cases done : len = 0
  · rw [if_pos done]
    exact { sound with place := watched }
  rw [if_neg done]
  by_cases empty : state.buf.size = 0
  · rw [if_pos empty]
    exact { sound with place := ⟨watched, empty, wanted done⟩ }
  rw [if_neg empty]
  obtain ⟨n, copied⟩ := sound.buf.copyOut_spec true done empty
  have bytes := copied.bytes
  rw [if_pos rfl] at bytes
  have length : (state.buf.copyOut true len).1.length = n := by
    rw [bytes, List.length_take, Nat.min_eq_left copied.available]
  refine { sound with
    buf := copied.sound
    ready := ⟨sound.ready.argval, sound.ready.ringName, sound.ready.areaName,
      sound.ready.sectionName⟩
    place := ⟨watched, fun more => ?_⟩ }
  have left : (state.buf.copyOut true len).2.1.toNat ≠ 0 :=
    fun zero => more (UInt32.toNat_inj.mp zero)
  rw [copied.left] at left ⊢
  obtain ⟨-, -, still⟩ := (steady_wants settings.version).missing (wanted done)
  rw [still _ (by omega), length]

theorem Sound.pending_length (sound : state.Sound settings) :
    state.buf.pending.length = state.buf.size.toNat := by
  rw [Rdbuf.pending, sound.drained, List.flatten_nil, List.append_nil]
  exact Rdbuf.readAt_length (by rw [sound.buf.memory]; exact sound.buf.inside)

theorem chunk_length (state : Follower) (most : Nat) :
    (state.chunk most).length =
      min (min (max most 1) state.buf.capacity.toNat) (state.file.length - state.position) := by
  rw [chunk, List.length_take, List.length_drop]

/-- What `read_in` makes of the bytes that `::read` returned. -/
theorem readIn_chunk {buf : Rdbuf} {chunk : List UInt8} (sound : buf.Sound) (empty : buf.size = 0)
    (stored : chunk ≠ []) (fits : chunk.length ≤ buf.capacity.toNat) :
    ∃ next, { buf with input := [chunk] }.readIn = (true, next) ∧ next.Sound ∧ next.input = [] ∧
      next.capacity = buf.capacity ∧ next.size ≠ 0 ∧ next.pending = chunk := by
  have ready : { buf with input := [chunk] }.Sound :=
    { sound with
      input := fun other member => by
        rw [List.mem_singleton.mp member]
        exact ⟨stored, fits⟩ }
  have pending : { buf with input := [chunk] }.pending = chunk := by
    rw [Rdbuf.pending, empty]
    exact List.append_nil _
  rcases ready.refill_spec with ⟨nothing, -⟩ | ⟨next, filled, nextSound, some, same, -⟩
  · rw [pending] at nothing
    exact absurd nothing stored
  · rw [if_pos empty] at filled
    have bytes : ¬ chunk.length = 0 := mt List.length_eq_zero_iff.mp stored
    have result := filled
    simp only [Rdbuf.readIn, bytes, if_false, Prod.mk.injEq] at result
    exact ⟨next, filled, nextSound, by rw [← result.2], by rw [← result.2], some,
      by rw [same, pending]⟩

theorem Sound.fill (sound : state.Sound settings) (pc : state.pc = .filling len) (most : Nat) :
    (state.fill len most).Sound settings := by
  have place := sound.place
  rw [Stands, pc] at place
  obtain ⟨watched, empty, wanted⟩ := place
  have length := chunk_length state most
  have room := sound.room
  have inside := sound.inside
  have started := sound.started
  by_cases nothing : state.chunk most = []
  · have ended : { state.buf with input := [state.chunk most] }.readIn = (false, state.buf) := by
      rw [nothing, ← sound.drained]
      rfl
    rw [nothing, List.length_nil] at length
    rw [Follower.fill, ended]
    exact { sound with place := ⟨watched, empty, wanted, fun unread => by
      dsimp only at unread
      omega⟩ }
  · obtain ⟨next, filled, nextSound, drained, capacity, -⟩ :=
      readIn_chunk sound.buf empty nothing (by omega)
    rw [Follower.fill, filled]
    exact { sound with
      buf := nextSound
      drained := drained
      room := by rwa [capacity]
      started := Nat.le_add_right_of_le started
      inside := by
        dsimp only
        omega
      place := ⟨watched, fun _ => wanted⟩ }

theorem Sound.sleep (sound : state.Sound settings) (pc : state.pc = .sleeping len) :
    (state.sleep len).Sound settings := by
  have place := sound.place
  rw [Stands, pc] at place
  rw [Follower.sleep]
  split
  · exact sound
  · exact { sound with place := ⟨place.1, place.2.1, place.2.2.1⟩ }

theorem Sound.step (sound : state.Sound settings)
    (least : Record.byteSize ≤ settings.maxRecordSize.toNat) (most : Nat) :
    (state.step settings.version most).Sound settings := by
  rw [Follower.step]
  cases pc : state.pc with
  | watching => exact { sound with place := rfl }
  | parsing => exact sound.parse pc least
  | copying len => exact sound.copy pc
  | filling len => exact sound.fill pc most
  | sleeping len => exact sound.sleep pc
  | stopped => exact sound

theorem Sound.act (sound : state.Sound settings)
    (least : Record.byteSize ≤ settings.maxRecordSize.toNat) (action : FollowAction) :
    (state.act settings.version action).Sound settings := by
  cases action with
  | append bytes => exact sound.append bytes
  | announce merged => exact sound.announce merged
  | step most => exact sound.step least most

/-! ## What the follower hands over -/

variable {strings : UInt64 → List UInt8} {items : List FormatData}

/-- The records that were handed over and the bytes behind them: those the
parser was given since, those in the buffer, and those still in the file. -/
structure Handed (strings : UInt64 → List UInt8) (items : List FormatData) (state : Follower)
    (whole missing : List FormatData) : Prop where
  items : items = whole ++ missing
  emitted : List.Forall₂ (SameRecord strings) whole state.emitted
  bytes : state.appended = whole.flatMap (pack strings) ++
    (state.parser.input ++ (state.buf.pending ++ state.file.drop state.position))
  running : state.pc ≠ .stopped

variable {whole missing : List FormatData}

theorem Handed.parser_prefix (handed : Handed strings items state whole missing)
    (log : state.appended <+: items.flatMap (pack strings)) :
    state.parser.input <+: missing.flatMap (pack strings) := by
  rw [handed.bytes, handed.items, List.flatMap_append, List.prefix_append_right_inj] at log
  exact (List.prefix_append _ _).trans log

/-- What the parser was given is less than a record, or starts with one. -/
theorem Handed.parse (handed : Handed strings items state whole missing)
    (sound : state.Sound settings) (version : settings.version = .v1_1)
    (least : Record.byteSize ≤ settings.maxRecordSize.toNat)
    (packable : ∀ item ∈ items, Packable strings settings.maxRecordSize.toNat item)
    (log : state.appended <+: items.flatMap (pack strings)) (pc : state.pc = .parsing) :
    (∃ more left parser data, parser.input.length < state.parser.input.length ∧
        state.parse settings.version =
          { state with parser, emitted := state.emitted ++ [data] } ∧
        Handed strings items (state.parse settings.version) (whole ++ [more]) left) ∨
      ∃ count, wants settings.version state.parser.input = .error count ∧
        state.parse settings.version = { state with pc := .copying (UInt32.ofNat count) } := by
  obtain ⟨here, later, left, split, input, empty, next⟩ :=
    cut_flatMap (pack strings) missing (handed.parser_prefix log)
  have most := settings.maxRecordSize.toNat_lt
  have packable' : ∀ item ∈ missing, Packable strings settings.maxRecordSize.toNat item :=
    fun item member => packable item (handed.items ▸ List.mem_append_right _ member)
  cases here with
  | nil =>
      right
      rw [List.flatMap_nil, List.nil_append] at input
      rw [List.nil_append] at split
      have cut : reading settings.version settings.maxRecordSize.toNat state.parser.input = .ended ∨
          reading settings.version settings.maxRecordSize.toNat state.parser.input = .cut := by
        rw [input, version]
        cases later with
        | nil =>
            rw [empty rfl]
            exact .inl rfl
        | cons item later =>
            obtain ⟨start, short⟩ := next item rfl
            exact (packable' item (by simp [split])).reading_cut most start short
      obtain ⟨count, wanted⟩ := wants_cut cut
      have follows := Parser.next_follows settings.version sound.ready least most sound.clean
      refine ⟨count, wanted, ?_⟩
      rcases cut with ended | cut
      · rw [ended] at follows
        obtain ⟨after, called, ok⟩ := follows
        simp only [Follower.parse, called, ok, wanted, Bool.false_and, Bool.false_eq_true, if_false]
      · rw [cut] at follows
        obtain ⟨after, called, -, silent⟩ := follows
        simp only [Follower.parse, called, silent, wanted, Bool.and_false, Bool.false_eq_true,
          if_false]
  | cons item here =>
      left
      rw [List.flatMap_cons, List.append_assoc] at input
      rw [List.cons_append] at split
      have item_packable := packable' item (by simp [split])
      obtain ⟨decoded, after, called, same, -, rest, -⟩ :=
        next_packed sound.ready most sound.clean.1 item_packable input
      have shorter := (reading_record (item_packable.reading most
        (here.flatMap (pack strings) ++ left))).2
      have result : state.parse settings.version =
          { state with parser := after, emitted := state.emitted ++ [decoded] } := by
        simp only [Follower.parse, version, called]
      refine ⟨item, here ++ later, after, decoded, ?_, result, ?_⟩
      · rw [rest, input]
        exact shorter
      · rw [result]
        refine ⟨?_, ?_, ?_, handed.running⟩
        · rw [handed.items, split, List.append_assoc, List.singleton_append]
        · exact List.rel_append handed.emitted (.cons same .nil)
        · change state.appended = _ ++ (after.input ++ _)
          rw [handed.bytes, input, rest, List.flatMap_append, List.flatMap_singleton]
          simp only [List.append_assoc]

/-- Copying moves bytes from the buffer to the parser. -/
theorem Handed.copy (handed : Handed strings items state whole missing)
    (sound : state.Sound settings) (pc : state.pc = .copying len) :
    Handed strings items (state.copy len) whole missing ∧
      (state.copy len).remaining < state.remaining := by
  have after := sound.copy pc
  rw [Follower.copy] at after ⊢
  by_cases done : len = 0
  · rw [if_pos done]
    refine ⟨{ handed with running := FollowPc.noConfusion }, ?_⟩
    simp only [remaining, pc, weight, if_pos done]
    omega
  rw [if_neg done] at after ⊢
  by_cases empty : state.buf.size = 0
  · rw [if_pos empty]
    refine ⟨{ handed with running := FollowPc.noConfusion }, ?_⟩
    simp only [remaining, pc, weight, if_neg done]
    omega
  rw [if_neg empty] at after ⊢
  have copied_out : (let (bytes, len, buf) := state.buf.copyOut true len
      { state with buf, parser.input := state.parser.input ++ bytes, pc := .copying len }) =
      { state with
        buf := (state.buf.copyOut true len).2.2
        parser.input := state.parser.input ++ (state.buf.copyOut true len).1
        pc := .copying (state.buf.copyOut true len).2.1 } := rfl
  obtain ⟨n, copied⟩ := sound.buf.copyOut_spec true done empty
  have bytes := copied.bytes
  rw [if_pos rfl] at bytes
  constructor
  · refine { handed with bytes := ?_, running := FollowPc.noConfusion }
    change state.appended = _ ++ ((state.parser.input ++ (state.buf.copyOut true len).1) ++
      ((state.buf.copyOut true len).2.2.pending ++ _))
    rw [handed.bytes, bytes, copied.pending, List.append_assoc, ← List.append_assoc (List.take _ _),
      List.take_append_drop]
  · have size := after.pending_length
    have before := sound.pending_length
    have available := copied.available
    have positive := copied.positive
    change (state.buf.copyOut true len).2.2.pending.length =
      (state.buf.copyOut true len).2.2.size.toNat at size
    rw [copied.pending, List.length_drop] at size
    have light : weight (.copying (state.buf.copyOut true len).2.1) ≤ 4 := by
      rw [weight]
      split <;> decide
    have heavy : weight (.copying len) = 2 := if_neg done
    rw [copied_out]
    simp only [remaining, pc, List.length_append, bytes, List.length_take]
    omega

/-- Filling moves bytes from the file to the buffer. -/
theorem Handed.fill (handed : Handed strings items state whole missing)
    (sound : state.Sound settings) (pc : state.pc = .filling len) (most : Nat) :
    Handed strings items (state.fill len most) whole missing ∧
      (state.fill len most).remaining < state.remaining := by
  have after := sound.fill pc most
  have place := sound.place
  rw [Stands, pc] at place
  obtain ⟨-, empty, wanted⟩ := place
  have length := chunk_length state most
  by_cases nothing : state.chunk most = []
  · have ended : { state.buf with input := [state.chunk most] }.readIn = (false, state.buf) := by
      rw [nothing, ← sound.drained]
      rfl
    rw [Follower.fill, ended]
    refine ⟨{ handed with running := FollowPc.noConfusion }, ?_⟩
    simp only [remaining, pc, weight]
    omega
  · obtain ⟨next, filled, -, -, -, -, pending⟩ :=
      readIn_chunk sound.buf empty nothing (by omega)
    rw [Follower.fill, filled] at after ⊢
    have drained : state.buf.pending = [] := by
      rw [← List.length_eq_zero_iff, sound.pending_length, empty]
      rfl
    constructor
    · refine { handed with bytes := ?_, running := FollowPc.noConfusion }
      have split : state.file.drop state.position =
          state.chunk most ++ state.file.drop (state.position + (state.chunk most).length) := by
        obtain ⟨rest, whole⟩ : state.chunk most <+: state.file.drop state.position :=
          List.take_prefix _ _
        rw [← List.drop_drop, ← whole, List.drop_left]
      change state.appended = _ ++ (_ ++ (next.pending ++ _))
      rw [handed.bytes, drained, List.nil_append, pending, ← split]
    · have size := after.pending_length
      change next.pending.length = next.size.toNat at size
      rw [pending] at size
      have some : (state.chunk most).length ≠ 0 := mt List.length_eq_zero_iff.mp nothing
      have asked : len ≠ 0 := by
        rintro rfl
        exact absurd ((steady_wants settings.version).missing wanted).1 (Nat.lt_irrefl 0)
      have inside := sound.inside
      simp only [remaining, pc, weight, if_neg asked]
      omega

theorem step_asleep {version : Version} (asleep : state.Asleep) (most : Nat) :
    state.step version most = state := by
  obtain ⟨⟨len, pc⟩, none⟩ := asleep
  rw [Follower.step, pc]
  exact if_pos none

/-- A follower that is not asleep gets closer to it with every step. -/
theorem Handed.step (handed : Handed strings items state whole missing)
    (sound : state.Sound settings) (version : settings.version = .v1_1)
    (least : Record.byteSize ≤ settings.maxRecordSize.toNat)
    (packable : ∀ item ∈ items, Packable strings settings.maxRecordSize.toNat item)
    (log : state.appended <+: items.flatMap (pack strings)) (awake : ¬ state.Asleep) (most : Nat) :
    (∃ whole missing, Handed strings items (state.step settings.version most) whole missing) ∧
      (state.step settings.version most).remaining < state.remaining := by
  cases pc : state.pc with
  | watching =>
      simp only [Follower.step, pc]
      refine ⟨⟨whole, missing, { handed with running := FollowPc.noConfusion }⟩, ?_⟩
      simp only [remaining, pc, weight]
      omega
  | parsing =>
      simp only [Follower.step, pc]
      rcases handed.parse sound version least packable log pc with
        ⟨more, left, parser, data, shorter, result, next⟩ | ⟨count, wanted, asks⟩
      · refine ⟨⟨_, _, next⟩, ?_⟩
        rw [result]
        simp only [remaining]
        omega
      · have positive := ((steady_wants settings.version).missing wanted).1
        have asked : UInt32.ofNat count ≠ 0 := by
          intro zero
          rw [← UInt32.toNat_inj, toNat_missing wanted] at zero
          exact absurd positive (zero ▸ Nat.lt_irrefl 0)
        rw [asks]
        refine ⟨⟨whole, missing, { handed with running := FollowPc.noConfusion }⟩, ?_⟩
        simp only [remaining, pc, weight, if_neg asked]
        omega
  | copying len =>
      simp only [Follower.step, pc]
      obtain ⟨next, less⟩ := handed.copy sound pc
      exact ⟨⟨_, _, next⟩, less⟩
  | filling len =>
      simp only [Follower.step, pc]
      obtain ⟨next, less⟩ := handed.fill sound pc most
      exact ⟨⟨_, _, next⟩, less⟩
  | sleeping len =>
      have some : state.events ≠ 0 := fun none => awake ⟨⟨len, pc⟩, none⟩
      simp only [Follower.step, pc, Follower.sleep, if_neg some]
      refine ⟨⟨whole, missing, { handed with running := FollowPc.noConfusion }⟩, ?_⟩
      simp only [remaining, pc, weight, eventsAtOnce]
      omega
  | stopped => exact absurd pc handed.running

/-- The follower leaves the file and the announcements to come alone. -/
theorem step_others (version : Version) (state : Follower) (most : Nat) :
    (state.step version most).file = state.file ∧
      (state.step version most).start = state.start ∧
      (state.step version most).due = state.due := by
  rw [Follower.step]
  split
  · exact ⟨rfl, rfl, rfl⟩
  · rw [Follower.parse]
    split
    · exact ⟨rfl, rfl, rfl⟩
    · split
      · exact ⟨rfl, rfl, rfl⟩
      · split <;> exact ⟨rfl, rfl, rfl⟩
    · exact ⟨rfl, rfl, rfl⟩
  · rw [Follower.copy]
    split
    · exact ⟨rfl, rfl, rfl⟩
    · split <;> exact ⟨rfl, rfl, rfl⟩
  · rw [Follower.fill]
    split <;> exact ⟨rfl, rfl, rfl⟩
  · rw [Follower.sleep]
    split <;> exact ⟨rfl, rfl, rfl⟩
  · exact ⟨rfl, rfl, rfl⟩

theorem act_file (version : Version) (state : Follower) (action : FollowAction) :
    (state.act version action).file = state.file ++ action.bytes ∧
      (state.act version action).start = state.start := by
  cases action with
  | append bytes => exact ⟨rfl, rfl⟩
  | announce merged => exact ⟨(List.append_nil _).symm, rfl⟩
  | step most =>
      obtain ⟨file, start, -⟩ := step_others version state most
      exact ⟨file.trans (List.append_nil _).symm, start⟩

theorem Sound.act_appended (sound : state.Sound settings) (version : Version)
    (action : FollowAction) :
    (state.act version action).appended = state.appended ++ action.bytes := by
  obtain ⟨file, start⟩ := act_file version state action
  rw [appended, file, start, List.drop_append_of_le_length (sound.started.trans sound.inside)]
  rfl

/-- An append adds to the bytes that are still in the file. -/
theorem Handed.append (handed : Handed strings items state whole missing)
    (sound : state.Sound settings) (bytes : List UInt8) :
    Handed strings items { state with file := state.file ++ bytes, due := state.due + 1 } whole
      missing := by
  refine { handed with bytes := ?_ }
  change (state.file ++ bytes).drop state.start =
    _ ++ (_ ++ (_ ++ (state.file ++ bytes).drop state.position))
  rw [List.drop_append_of_le_length (sound.started.trans sound.inside),
    List.drop_append_of_le_length sound.inside, ← appended, handed.bytes]
  simp only [List.append_assoc]

theorem Handed.act (handed : Handed strings items state whole missing)
    (sound : state.Sound settings) (version : settings.version = .v1_1)
    (least : Record.byteSize ≤ settings.maxRecordSize.toNat)
    (packable : ∀ item ∈ items, Packable strings settings.maxRecordSize.toNat item)
    (log : state.appended <+: items.flatMap (pack strings)) (action : FollowAction) :
    ∃ whole missing, Handed strings items (state.act settings.version action) whole missing := by
  cases action with
  | append bytes => exact ⟨whole, missing, handed.append sound bytes⟩
  | announce merged => exact ⟨whole, missing, { handed with }⟩
  | step most =>
      by_cases asleep : state.Asleep
      · rw [Follower.act, step_asleep asleep]
        exact ⟨whole, missing, handed⟩
      · exact (handed.step sound version least packable log asleep most).1

/-! ## Runs -/

section Runs

variable {actions : List FollowAction}

theorem Sound.after (sound : state.Sound settings)
    (least : Record.byteSize ≤ settings.maxRecordSize.toNat) (actions : List FollowAction) :
    (state.after settings.version actions).Sound settings :=
  runs_invariant sound (fun _ action sound => sound.act least action) actions

theorem Sound.after_appended (sound : state.Sound settings)
    (least : Record.byteSize ≤ settings.maxRecordSize.toNat) (actions : List FollowAction) :
    (state.after settings.version actions).appended =
      state.appended ++ actions.flatMap FollowAction.bytes := by
  induction actions using List.reverseRecOn with
  | nil => exact (List.append_nil _).symm
  | append_singleton actions last ih =>
      rw [Follower.after, runs_concat]
      change ((state.after settings.version actions).act settings.version last).appended = _
      rw [(sound.after least actions).act_appended, ih, List.flatMap_append,
        List.flatMap_singleton, List.append_assoc]

theorem Handed.after (handed : Handed strings items state whole missing)
    (sound : state.Sound settings) (version : settings.version = .v1_1)
    (least : Record.byteSize ≤ settings.maxRecordSize.toNat)
    (packable : ∀ item ∈ items, Packable strings settings.maxRecordSize.toNat item)
    (log : (state.after settings.version actions).appended <+: items.flatMap (pack strings)) :
    ∃ whole missing, Handed strings items (state.after settings.version actions) whole missing := by
  have earlier (before : Follower) (action : FollowAction) (kept : before.Sound settings)
      (log : (before.act settings.version action).appended <+: items.flatMap (pack strings)) :
      before.appended <+: items.flatMap (pack strings) := by
    rw [kept.act_appended] at log
    exact (List.prefix_append _ _).trans log
  refine @runs_invariant_of _ _ (Follower.act settings.version) (Sound settings)
    (fun state => state.appended <+: items.flatMap (pack strings))
    (fun state => ∃ whole missing, Handed strings items state whole missing) state
    (sound.after least) earlier (fun _ => ⟨whole, missing, handed⟩) ?_ actions log
  intro before action kept log holds
  obtain ⟨whole, missing, holds⟩ := holds
  exact holds.act kept version least packable (earlier before action kept log) action

theorem Handed.shows (handed : Handed strings items state whole missing) :
    state.Shows strings items :=
  ⟨whole, missing, handed.items, handed.emitted, by rw [handed.bytes]; exact List.prefix_append _ _⟩

/-- A follower that sleeps while no announcement is due has handed over every
record of the file. -/
theorem Handed.caughtUp (handed : Handed strings items state whole missing)
    (sound : state.Sound settings) (version : settings.version = .v1_1)
    (packable : ∀ item ∈ items, Packable strings settings.maxRecordSize.toNat item)
    (log : state.appended <+: items.flatMap (pack strings)) (asleep : state.Asleep)
    (announced : state.due = 0) : state.CaughtUp strings items := by
  obtain ⟨⟨len, pc⟩, none⟩ := asleep
  have place := sound.place
  rw [Stands, pc] at place
  obtain ⟨-, empty, wanted, woken⟩ := place
  have drained : state.buf.pending = [] := by
    rw [← List.length_eq_zero_iff, sound.pending_length, empty]
    rfl
  have read : state.file.drop state.position = [] := by
    rw [List.drop_eq_nil_iff]
    refine Nat.le_of_not_lt fun unread => ?_
    have event := woken unread
    omega
  obtain ⟨here, later, left, split, input, none_left, next⟩ :=
    cut_flatMap (pack strings) missing (handed.parser_prefix log)
  cases here with
  | nil =>
      refine ⟨whole, missing, state.parser.input, handed.items, handed.emitted, ?_, ?_⟩
      · rw [handed.bytes, drained, read, List.nil_append, List.append_nil]
      · rw [List.nil_append] at split
        rw [split, input, List.flatMap_nil, List.nil_append]
        exact ⟨none_left, next⟩
  | cons item here =>
      -- a whole record would have met the request
      rw [List.flatMap_cons, List.append_assoc] at input
      have member : item ∈ items := by
        rw [handed.items, split]
        simp
      have found := wants_record (reading_eq_record ((packable item member).reading
        settings.maxRecordSize.toNat_lt (here.flatMap (pack strings) ++ left))).2
      rw [← input, ← version, wanted] at found
      cases found

/-- What the follower keeps as long as it acts alone, with all changes
announced. -/
structure Undisturbed (settings : Cook.Settings) (strings : UInt64 → List UInt8)
    (items : List FormatData) (file : List UInt8) (state : Follower) : Prop where
  sound : state.Sound settings
  file : state.file = file
  due : state.due = 0
  log : state.appended <+: items.flatMap (pack strings)
  handed : ∃ whole missing, Handed strings items state whole missing

theorem Undisturbed.step {file : List UInt8}
    (alone : state.Undisturbed settings strings items file) (version : settings.version = .v1_1)
    (least : Record.byteSize ≤ settings.maxRecordSize.toNat)
    (packable : ∀ item ∈ items, Packable strings settings.maxRecordSize.toNat item)
    (awake : ¬ state.Asleep) (most : Nat) :
    (state.step settings.version most).Undisturbed settings strings items file ∧
      (state.step settings.version most).remaining < state.remaining := by
  obtain ⟨whole, missing, handed⟩ := alone.handed
  obtain ⟨sameFile, sameStart, sameDue⟩ := step_others settings.version state most
  obtain ⟨next, less⟩ := handed.step alone.sound version least packable alone.log awake most
  refine ⟨⟨alone.sound.step least most, ?_, ?_, ?_, next⟩, less⟩
  · rw [sameFile, alone.file]
  · rw [sameDue, alone.due]
  · rw [appended, sameFile, sameStart]
    exact alone.log

theorem after_steps (version : Version) (state : Follower) (reads : List Nat) :
    state.after version (reads.map .step) =
      runs (fun state most => state.step version most) state reads := by
  rw [Follower.after, runs, List.foldl_map]
  rfl

theorem runs_asleep {version : Version} (asleep : state.Asleep) (reads : List Nat) :
    runs (fun state most => state.step version most) state reads = state := by
  induction reads with
  | nil => rfl
  | cons most reads ih =>
      change runs _ (state.step version most) reads = state
      rw [step_asleep asleep]
      exact ih

/-- Enough steps of its own put the follower to sleep. -/
theorem Undisturbed.settles {file : List UInt8}
    (alone : state.Undisturbed settings strings items file) (version : settings.version = .v1_1)
    (least : Record.byteSize ≤ settings.maxRecordSize.toNat)
    (packable : ∀ item ∈ items, Packable strings settings.maxRecordSize.toNat item)
    {reads : List Nat} (enough : state.remaining ≤ reads.length) :
    (state.after settings.version (reads.map .step)).Undisturbed settings strings items file ∧
      (state.after settings.version (reads.map .step)).Asleep := by
  have few : state.remaining ≤ reads.countP fun _ => true := by rwa [List.countP_true]
  have kept (later : Follower) (most : Nat) (alone : later.Undisturbed settings strings items file)
      (awake : ¬ later.Asleep) :
      (later.step settings.version most).Undisturbed settings strings items file :=
    (alone.step version least packable awake most).1
  have drops (later : Follower) (most : Nat) (alone : later.Undisturbed settings strings items file)
      (awake : ¬ later.Asleep) (_ : true = true) :
      (later.step settings.version most).remaining < later.remaining :=
    (alone.step version least packable awake most).2
  have positive (later : Follower) (alone : later.Undisturbed settings strings items file)
      (awake : ¬ later.Asleep) : 0 < later.remaining :=
    Nat.zero_lt_of_lt (drops later 0 alone awake rfl)
  obtain ⟨earlier, later, rfl, -, holds, rests⟩ :=
    @runs_settles _ _ (fun state most => state.step settings.version most)
      (Undisturbed settings strings items file) (fun state => ¬ state.Asleep) remaining
      (fun _ => true) state kept positive drops
      (fun _ _ _ _ never => (Bool.false_ne_true never.symm).elim) alone reads few
  have asleep := not_not.mp rests
  have joined : (state.after settings.version ((earlier ++ later).map .step)) =
      runs (fun state most => state.step settings.version most) state earlier := by
    rw [after_steps, runs, List.foldl_append]
    exact runs_asleep asleep later
  rw [joined]
  exact ⟨holds, asleep⟩

theorem create_handed (strings : UInt64 → List UInt8) (items : List FormatData)
    (memory : Cook.Memory settings) (capacity : UInt32) (data file : List UInt8) :
    Handed strings items (create memory capacity data file) [] items where
  items := rfl
  emitted := .nil
  bytes := (List.nil_append _).symm
  running := FollowPc.noConfusion

end Runs

/-- A record is written in two pieces, and hogl-cook gets to the end of the file
between them. -/
def slowWriter : List FollowAction :=
  [.step 1, .step 1, .append ((pack (fun _ => []) greeting).take 30), .step 1, .step 8, .step 8,
    .announce false, .append ((pack (fun _ => []) greeting).drop 30), .step 8, .announce true]

theorem slowWriter_bytes :
    slowWriter.flatMap FollowAction.bytes = [greeting].flatMap (pack fun _ => []) := by
  simp [slowWriter, FollowAction.bytes]

end Follower

end Hogl.Raw
