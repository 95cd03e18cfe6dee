import Hogl.Output.Ostrbuf
import Mathlib.Data.List.Nodup
import Mathlib.Data.Nat.ModEq
import Mathlib.Logic.Function.Basic

namespace Hogl.Output

open Hogl.Data

/-! # Chunks of a rotated file

`writev` and `do_rotate` of `src/output-file.cc` over the files and
descriptors of the operating system.  A file is named by the index that
`update_name` puts into its name.  The writer's `writev` and the swap of the
descriptor run under `_write_mutex` and are one step each.
-/

section Sending

/-- A write of all there is, or the one that fails. -/
def sendResult (failing : Option Nat) (number length : Nat) : WriteResult :=
  if failing = some number then .error else .accepted length

def sendPiece (failing : Option Nat) (buf : Ostrbuf) (piece : List UInt8 × Nat) : Ostrbuf :=
  buf.act .fd (.pushBack piece.1 (sendResult failing piece.2 (buf.data ++ piece.1).length))

/-- Output of a format through an `ostrbuf_fd` with a buffer of 128 bytes, to
a descriptor that takes all it is offered up to a call that fails. -/
def send (pieces : List (List UInt8)) (failing : Option Nat) : Ostrbuf :=
  let buf := pieces.zipIdx.foldl (sendPiece failing) (.create 128 true)
  buf.act .fd (.flush [] (sendResult failing pieces.length buf.data.length))

end Sending

/-- Where the rotation thread stands in `do_rotate`. -/
inductive RotatePc where
  | idle
  /-- The new chunk is open. -/
  | opened (ofd nfd : Nat)
  /-- It has its header. -/
  | headed (ofd nfd : Nat)
  /-- The writer is on the new chunk. -/
  | swapped (ofd : Nat)
  | linked (ofd : Nat)
  /-- The old chunk has its footer. -/
  | footed (ofd : Nat)
deriving Repr, DecidableEq

/-- The parameters of an output and what its format writes. -/
structure FileOptions where
  maxSize : Nat
  maxCount : Nat
  /-- What `format::header` pushes into a chunk that is not the first. -/
  header : Nat → List (List UInt8)
  footer : Nat → List (List UInt8)

structure OutputFile where
  files : Nat → List UInt8
  /-- The file that each open descriptor stands for. -/
  fds : Nat → Option Nat
  fd : Nat
  size : Nat
  rotatePending : Bool
  nameIndex : Nat
  /-- Where the symbolic link points. -/
  link : Nat
  thread : RotatePc
  /-- The calls of `do_rotate` (ghost). -/
  attempts : Nat
  /-- The chunks the writer has left, oldest first, and the one it is on (ghost). -/
  rotated : List Nat
  current : Nat
  /-- What was written (ghost). -/
  written : List (List UInt8)

inductive FileAction where
  /-- `writev`, accepted completely. -/
  | writev (iov : List (List UInt8))
  /-- `do_rotate` opens a new chunk as this descriptor, or fails to. -/
  | openChunk (nfd : Option Nat)
  /-- It writes the header; a call with this number fails, if any. -/
  | writeHeader (failing : Option Nat)
  | swap
  | updateLink
  | writeFooter
  | close
deriving Repr, DecidableEq

namespace OutputFile

variable (options : FileOptions) (state : OutputFile)

/-- The constructor has opened its first chunk. -/
def create (files : Nat → List UInt8) (fd nameIndex : Nat) : OutputFile where
  files := Function.update files nameIndex []
  fds := Function.update (fun _ => none) fd (some nameIndex)
  fd
  size := 0
  rotatePending := false
  nameIndex
  link := nameIndex
  thread := .idle
  attempts := 0
  rotated := []
  current := nameIndex
  written := []

/-- A write to a descriptor opened with `O_APPEND`. -/
def append (fd : Nat) (bytes : List UInt8) : OutputFile :=
  match state.fds fd with
  | some name => { state with files := Function.update state.files name (state.files name ++ bytes) }
  | none => state

/-- The mutex of the rotation thread is free while the thread waits. -/
def writev (iov : List (List UInt8)) : OutputFile :=
  let appended := state.append state.fd iov.flatten
  let size := state.size + iov.flatten.length
  { appended with
    size
    rotatePending := state.rotatePending || iov.flatten != [] && decide (options.maxSize ≤ size) &&
      state.thread == .idle
    written := state.written ++ iov }

def nextIndex : Nat :=
  if options.maxCount ≤ state.nameIndex + 1 then 0 else state.nameIndex + 1

/-- The end of a call of `do_rotate`. -/
def leave : OutputFile := { state with thread := .idle, rotatePending := false }

def openChunk (nfd : Option Nat) : OutputFile :=
  let name := state.nextIndex options
  let named := { state with nameIndex := name, attempts := state.attempts + 1 }
  match nfd with
  | none => named.leave
  | some nfd => { named with
      files := Function.update state.files name []
      fds := Function.update state.fds nfd (some name)
      thread := .opened state.fd nfd }

def closeFd (fd : Nat) : OutputFile := { state with fds := Function.update state.fds fd none }

def writeHeader (ofd nfd : Nat) (failing : Option Nat) : OutputFile :=
  let nsb := send (options.header state.nameIndex) failing
  let sent := state.append nfd nsb.accepted
  if nsb.failed then (sent.closeFd nfd).leave else { sent with thread := .headed ofd nfd }

def swap (ofd nfd : Nat) : OutputFile :=
  { state with
    fd := nfd
    size := 0
    thread := .swapped ofd
    rotated := state.rotated ++ [state.current]
    current := state.nameIndex }

/-- The bytes of the footer that go into a chunk, all of them unless there are
too many for an `int`. -/
def footerBytes (name : Nat) : List UInt8 := (send (options.footer name) none).accepted

def act : FileAction → OutputFile
  | .writev iov => state.writev options iov
  | .openChunk nfd =>
      if state.thread = .idle ∧ state.rotatePending = true ∧
          ∀ fd ∈ nfd, state.fds fd = none then state.openChunk options nfd
      else state
  | .writeHeader failing =>
      match state.thread with
      | .opened ofd nfd => state.writeHeader options ofd nfd failing
      | _ => state
  | .swap =>
      match state.thread with
      | .headed ofd nfd => state.swap ofd nfd
      | _ => state
  | .updateLink =>
      match state.thread with
      | .swapped ofd => { state with link := state.nameIndex, thread := .linked ofd }
      | _ => state
  | .writeFooter =>
      match state.thread with
      | .linked ofd =>
          { state.append ofd (footerBytes options state.nameIndex) with thread := .footed ofd }
      | _ => state
  | .close =>
      match state.thread with
      | .footed ofd => (state.closeFd ofd).leave
      | _ => state

def after (start : OutputFile) (actions : List FileAction) : OutputFile :=
  runs (act options) start actions

/-- The chunks in rotation order. -/
def chunks : List Nat := state.rotated ++ [state.current]

/-- How many chunks have got their footer. -/
def footed : Nat :=
  match state.thread with
  | .swapped _ | .linked _ => state.rotated.length - 1
  | _ => state.rotated.length

/-- What stands in front of the data of a chunk. -/
def leader (position name : Nat) : List UInt8 :=
  if position = 0 then [] else (options.header name).flatten

/-- What stands behind the data of a chunk: the footer, with the name of the
chunk that follows. -/
def trailer (position : Nat) : List UInt8 :=
  if position < state.footed then footerBytes options (state.chunks.getD (position + 1) 0) else []

/-- The chunks hold the stream: each of them its header, a run of what was
written and its footer. -/
def Intact : Prop :=
  ∃ bodies : List (List (List UInt8)),
    bodies.length = state.chunks.length ∧ bodies.flatten = state.written ∧
    ∀ (position name : Nat) (body : List (List UInt8)), state.chunks[position]? = some name →
      bodies[position]? = some body →
      state.files name = leader options position name ++ body.flatten ++
        state.trailer options position

end OutputFile

/-! ## What a format sends -/

/-- The data of a write that is not short is kept or passed on. -/
theorem sendResult_whole (stream : Stream) (buf : Ostrbuf) (failing : Option Nat) (number : Nat)
    {call : BufferCall} (result : call.result = sendResult failing number
      (buf.data ++ call.data).length) : buf.outcome stream call ≠ .short := by
  have bound : (buf.offered stream call).length ≤ (buf.data ++ call.data).length := by
    cases call <;> simp only [Ostrbuf.offered, BufferCall.data] <;> split <;>
      simp only [List.length_nil, Nat.zero_le, Nat.le_refl]
  rw [Ostrbuf.outcome, result, sendResult]
  split
  · simp only [Ostrbuf.ending]
    split <;> exact fun short => by cases short
  · have whole := Nat.not_lt.mpr bound
    simp only [Ostrbuf.ending, if_neg whole]
    split
    · exact fun short => by cases short
    · split <;> exact fun short => by cases short

theorem sent_even {failing : Option Nat} {number : Nat} {buf : Ostrbuf} {call : BufferCall}
    (result : call.result = sendResult failing number (buf.data ++ call.data).length)
    (even : buf.failed = false → buf.held = buf.pushed)
    (live : (buf.act .fd call).failed = false) :
    (buf.act .fd call).held = (buf.act .fd call).pushed := by
  have alive : buf.failed = false := by
    apply eq_false_of_ne_true
    intro failed
    cases ((Ostrbuf.act_failed .fd buf call).mpr (.inl failed)).symm.trans live
  have whole := sendResult_whole .fd buf failing number result
  rw [(Ostrbuf.act_held live).1 whole, even alive, Ostrbuf.act_pushed]

theorem sendPieces_even (failing : Option Nat) (pieces : List (List UInt8 × Nat)) (buf : Ostrbuf)
    (even : buf.failed = false → buf.held = buf.pushed) :
    (pieces.foldl (sendPiece failing) buf).pushed = buf.pushed ++ (pieces.map Prod.fst).flatten ∧
    ((pieces.foldl (sendPiece failing) buf).failed = false →
      (pieces.foldl (sendPiece failing) buf).held = (pieces.foldl (sendPiece failing) buf).pushed) := by
  induction pieces generalizing buf with
  | nil => exact ⟨(List.append_nil _).symm, even⟩
  | cons piece rest ih =>
      obtain ⟨pushed, kept⟩ := ih (sendPiece failing buf piece) (sent_even rfl even)
      refine ⟨?_, kept⟩
      rw [List.foldl_cons, pushed, List.map_cons, List.flatten_cons, ← List.append_assoc]
      rfl

/-- What passes through without a failure arrives as it was pushed. -/
theorem send_accepted {pieces : List (List UInt8)} {failing : Option Nat}
    (live : (send pieces failing).failed = false) :
    (send pieces failing).accepted = pieces.flatten := by
  obtain ⟨pushed, kept⟩ := sendPieces_even failing pieces.zipIdx (.create 128 true) fun _ => rfl
  have held : (send pieces failing).held = (send pieces failing).pushed := by
    refine @sent_even failing pieces.length _ _ ?_ kept live
    rw [BufferCall.data, List.append_nil]
    rfl
  have total : (send pieces failing).pushed = pieces.flatten := by
    rw [List.zipIdx_map_fst] at pushed
    rw [send, Ostrbuf.act_pushed, pushed]
    exact List.append_nil _
  rw [Ostrbuf.held, total] at held
  have empty : (send pieces failing).data = [] := Ostrbuf.flush_data live
  rwa [empty, List.append_nil] at held

theorem sent_live {number : Nat} {buf : Ostrbuf} {call : BufferCall}
    (result : call.result = sendResult none number (buf.data ++ call.data).length)
    (live : buf.failed = false) (small : (buf.held ++ call.data).length < 2 ^ 31) :
    (buf.act .fd call).failed = false := by
  apply eq_false_of_ne_true
  intro failed
  rcases (Ostrbuf.act_failed .fd buf call).mp failed with before | now
  · cases before.symm.trans live
  · have bound : (buf.offered .fd call).length < 2 ^ 31 := by
      refine Nat.lt_of_le_of_lt ?_ small
      cases call <;> simp only [Ostrbuf.offered, BufferCall.data, Ostrbuf.held] <;> split <;>
        simp only [List.length_append, List.length_nil] <;> omega
    have positive (count : Nat) : negativeInt (min count (buf.offered .fd call).length) = false := by
      rw [negativeInt, decide_eq_false_iff_not]
      omega
    have accepted : sendResult none number (buf.data ++ call.data).length =
        .accepted (buf.data ++ call.data).length := if_neg (Option.some_ne_none _).symm
    rw [Ostrbuf.outcome, result, accepted, Ostrbuf.ending, positive] at now
    split at now
    · cases now
    · simp only [Bool.false_eq_true, if_false] at now
      split at now <;> cases now

theorem sendPieces_live (pieces : List (List UInt8 × Nat)) {buf : Ostrbuf}
    (live : buf.failed = false) (even : buf.held = buf.pushed)
    (small : (buf.pushed ++ (pieces.map Prod.fst).flatten).length < 2 ^ 31) :
    (pieces.foldl (sendPiece none) buf).failed = false := by
  induction pieces generalizing buf with
  | nil => exact live
  | cons piece rest ih =>
      have pushed : (sendPiece none buf piece).pushed = buf.pushed ++ piece.1 := rfl
      rw [List.map_cons, List.flatten_cons, ← List.append_assoc] at small
      have still : (sendPiece none buf piece).failed = false := by
        refine @sent_live piece.2 buf _ rfl live ?_
        rw [even]
        rw [List.length_append] at small
        exact Nat.lt_of_le_of_lt (Nat.le_add_right _ _) small
      exact ih still (sent_even rfl (fun _ => even) still) (pushed ▸ small)

/-- Without a failure of the descriptor, less than 2 GiB arrive whole. -/
theorem send_whole {pieces : List (List UInt8)} (small : pieces.flatten.length < 2 ^ 31) :
    (send pieces none).accepted = pieces.flatten := by
  have total : (pieces.zipIdx.map Prod.fst).flatten = pieces.flatten := by rw [List.zipIdx_map_fst]
  have live := sendPieces_live pieces.zipIdx (show (Ostrbuf.create 128 true).failed = false from rfl)
    rfl (total ▸ small)
  obtain ⟨pushed, kept⟩ := sendPieces_even none pieces.zipIdx (.create 128 true) fun _ => rfl
  apply send_accepted
  refine @sent_live pieces.length _ _ ?_ live ?_
  · rw [BufferCall.data, List.append_nil]
    rfl
  · rw [BufferCall.data, List.append_nil, kept live, pushed, total]
    exact small

namespace OutputFile

variable {options : FileOptions} {state : OutputFile} {start : Nat}

/-- What `do_rotate` knows of its descriptors and of the new chunk. -/
def Stage (options : FileOptions) (state : OutputFile) : RotatePc → Prop
  | .idle => True
  | .opened ofd nfd => ofd = state.fd ∧ nfd ≠ state.fd ∧ state.fds nfd = some state.nameIndex ∧
      state.nameIndex ∉ state.chunks ∧ state.files state.nameIndex = []
  | .headed ofd nfd => ofd = state.fd ∧ nfd ≠ state.fd ∧ state.fds nfd = some state.nameIndex ∧
      state.nameIndex ∉ state.chunks ∧
      state.files state.nameIndex = (options.header state.nameIndex).flatten
  | .swapped ofd | .linked ofd => ofd ≠ state.fd ∧ state.nameIndex = state.current ∧
      ∃ older last, state.rotated = older ++ [last] ∧ state.fds ofd = some last
  | .footed ofd => ofd ≠ state.fd

/-- Where the descriptors and the names stand. -/
structure Placed (options : FileOptions) (start : Nat) (state : OutputFile) : Prop where
  named : state.nameIndex = (start + state.attempts) % options.maxCount
  used : ∀ name ∈ state.chunks, ∃ number ≤ state.attempts,
    name = (start + number) % options.maxCount
  nodup : state.chunks.Nodup
  writer : state.fds state.fd = some state.current
  stage : state.Stage options state.thread

theorem Placed.at {place : RotatePc} (placed : Placed options start state)
    (stands : state.thread = place) : state.Stage options place := stands ▸ placed.stage

/-- The stream as it is laid out: `older` in the chunks that were left, `last`
in the one the writer is on. -/
structure Laid (options : FileOptions) (state : OutputFile) (older : List (List (List UInt8)))
    (last : List (List UInt8)) : Prop where
  count : older.length = state.rotated.length
  stream : older.flatten ++ last = state.written
  front : ∀ (position name : Nat) (body : List (List UInt8)),
    state.rotated[position]? = some name → older[position]? = some body →
    state.files name = leader options position name ++ body.flatten ++ state.trailer options position
  back : state.files state.current =
    leader options state.rotated.length state.current ++ last.flatten

namespace Laid

variable {older : List (List (List UInt8))} {last : List (List UInt8)}

theorem footed_le (state : OutputFile) : state.footed ≤ state.rotated.length := by
  rw [OutputFile.footed]
  split
  · exact Nat.sub_le _ _
  · exact Nat.sub_le _ _
  · exact Nat.le_refl _

theorem intact (laid : Laid options state older last) : state.Intact options := by
  refine ⟨older ++ [last], ?_, ?_, ?_⟩
  · simp only [chunks, List.length_append, laid.count, List.length_singleton]
  · rw [List.flatten_concat]
    exact laid.stream
  · intro position name body found holds
    rcases getElem?_concat_cases found with ⟨inside, found⟩ | ⟨rfl, rfl⟩
    · rw [List.getElem?_append_left (laid.count ▸ inside)] at holds
      exact laid.front position name body found holds
    · rw [← laid.count, List.getElem?_append_right (Nat.le_refl _), Nat.sub_self] at holds
      obtain rfl : last = body := Option.some.inj holds
      have none : state.trailer options state.rotated.length = [] :=
        if_neg (Nat.not_lt.mpr (footed_le state))
      rw [none, List.append_nil]
      exact laid.back

/-- A change that the chunks do not see. -/
theorem frame {next : OutputFile} (laid : Laid options state older last)
    (rotated : next.rotated = state.rotated) (current : next.current = state.current)
    (footed : next.footed = state.footed) (written : next.written = state.written)
    (files : ∀ name ∈ state.chunks, next.files name = state.files name) :
    Laid options next older last := by
  have inFront {position name : Nat} (found : state.rotated[position]? = some name) :
      name ∈ state.chunks := List.mem_append_left _ (List.mem_of_getElem? found)
  refine ⟨rotated ▸ laid.count, laid.stream.trans written.symm, ?_, ?_⟩
  · intro position name body found holds
    rw [rotated] at found
    have trailer : next.trailer options position = state.trailer options position := by
      rw [OutputFile.trailer, OutputFile.trailer, footed, chunks, chunks, rotated, current]
    rw [files name (inFront found), trailer]
    exact laid.front position name body found holds
  · rw [current, rotated, files state.current (List.mem_append_right _ List.mem_cons_self)]
    exact laid.back

theorem writev (laid : Laid options state older last) (placed : Placed options start state)
    (iov : List (List UInt8)) : Laid options (state.writev options iov) older (last ++ iov) := by
  have files : (state.writev options iov).files = Function.update state.files state.current
      (state.files state.current ++ iov.flatten) := by
    simp only [OutputFile.writev, append, placed.writer]
  have rest : (state.writev options iov).rotated = state.rotated ∧
      (state.writev options iov).current = state.current ∧
      (state.writev options iov).thread = state.thread ∧
      (state.writev options iov).written = state.written ++ iov := by
    simp only [OutputFile.writev, append, placed.writer, and_self]
  obtain ⟨rotated, current, thread, written⟩ := rest
  refine ⟨rotated ▸ laid.count, ?_, ?_, ?_⟩
  · rw [written, ← laid.stream, List.append_assoc]
  · intro position name body found holds
    rw [rotated] at found
    have trailer : (state.writev options iov).trailer options position =
        state.trailer options position := by
      rw [OutputFile.trailer, OutputFile.trailer, OutputFile.footed, OutputFile.footed, chunks,
        chunks, rotated, current, thread]
    have different : name ≠ state.current := by
      rintro rfl
      have nodup := placed.nodup
      rw [chunks, List.nodup_append] at nodup
      exact nodup.2.2 _ (List.mem_of_getElem? found) _ List.mem_cons_self rfl
    rw [files, Function.update_of_ne different, trailer]
    exact laid.front position name body found holds
  · rw [files, rotated, current, Function.update_self, laid.back, List.flatten_append,
      List.append_assoc]

theorem swap (laid : Laid options state older last) (placed : Placed options start state)
    {ofd nfd : Nat} (place : state.thread = .headed ofd nfd) :
    Laid options (state.swap ofd nfd) (older ++ [last]) [] := by
  obtain ⟨-, -, -, -, header⟩ := placed.at place
  have footed : (state.swap ofd nfd).footed = state.footed := by
    simp only [OutputFile.footed, OutputFile.swap, place, List.length_append, List.length_singleton,
      Nat.add_sub_cancel]
  have chunksEq : (state.swap ofd nfd).chunks = state.chunks ++ [state.nameIndex] := rfl
  have footedEq : state.footed = state.rotated.length := by
    simp only [OutputFile.footed, place]
  refine ⟨?_, ?_, ?_, ?_⟩
  · change (older ++ [last]).length = (state.rotated ++ [state.current]).length
    rw [List.length_append, List.length_append, laid.count]
    rfl
  · rw [List.flatten_concat, List.append_nil]
    exact laid.stream
  · intro position name body found holds
    change state.files name = _
    rcases getElem?_concat_cases found with ⟨inside, found⟩ | ⟨rfl, rfl⟩
    · rw [List.getElem?_append_left (laid.count ▸ inside)] at holds
      have trailer : (state.swap ofd nfd).trailer options position =
          state.trailer options position := by
        have bound : position + 1 < state.chunks.length := by
          rw [chunks, List.length_append, List.length_singleton]
          omega
        rw [OutputFile.trailer, OutputFile.trailer, footed, chunksEq, List.getD_eq_getElem?_getD,
          List.getElem?_append_left bound, List.getD_eq_getElem?_getD]
      rw [trailer]
      exact laid.front position name body found holds
    · rw [← laid.count, List.getElem?_append_right (Nat.le_refl _), Nat.sub_self] at holds
      obtain rfl : last = body := Option.some.inj holds
      have none : (state.swap ofd nfd).trailer options state.rotated.length = [] := by
        rw [OutputFile.trailer, footed, footedEq]
        exact if_neg (Nat.lt_irrefl _)
      rw [none, List.append_nil]
      exact laid.back
  · change state.files state.nameIndex =
      leader options (state.rotated ++ [state.current]).length state.nameIndex ++ _
    rw [header, List.length_append, List.length_singleton, leader, if_neg (Nat.succ_ne_zero _),
      List.flatten_nil, List.append_nil]

theorem writeFooter (laid : Laid options state older last) (placed : Placed options start state)
    {ofd : Nat} (place : state.thread = .linked ofd) :
    Laid options { state.append ofd (footerBytes options state.nameIndex) with
      thread := .footed ofd } older last := by
  obtain ⟨-, named, front, left, rotated, open'⟩ := placed.at place
  have length : state.rotated.length = front.length + 1 := by
    rw [rotated, List.length_append, List.length_singleton]
  have footed : state.footed = front.length := by
    simp only [OutputFile.footed, place, length, Nat.add_sub_cancel]
  have nodup := placed.nodup
  rw [chunks, List.nodup_append] at nodup
  have files : (state.append ofd (footerBytes options state.nameIndex)).files =
      Function.update state.files left (state.files left ++ footerBytes options state.nameIndex) := by
    simp only [append, open']
  have rest : (state.append ofd (footerBytes options state.nameIndex)).rotated = state.rotated ∧
      (state.append ofd (footerBytes options state.nameIndex)).current = state.current ∧
      (state.append ofd (footerBytes options state.nameIndex)).written = state.written := by
    simp only [append, open', and_self]
  obtain ⟨sameRotated, sameCurrent, sameWritten⟩ := rest
  have trailer (position : Nat) : OutputFile.trailer options
      { state.append ofd (footerBytes options state.nameIndex) with thread := .footed ofd } position =
      if position < front.length + 1 then
        footerBytes options (state.chunks.getD (position + 1) 0) else [] := by
    rw [OutputFile.trailer]
    simp only [OutputFile.footed, chunks, sameRotated, sameCurrent, length]
  refine ⟨?_, ?_, ?_, ?_⟩
  · exact laid.count.trans (congrArg List.length sameRotated).symm
  · exact laid.stream.trans sameWritten.symm
  · intro position name body found holds
    change (state.append ofd _).rotated[position]? = _ at found
    rw [sameRotated] at found
    have old := laid.front position name body found holds
    rw [OutputFile.trailer, footed] at old
    change (state.append ofd _).files name = _
    rw [files, trailer]
    have place := found
    rw [rotated] at place
    rcases getElem?_concat_cases place with ⟨inside, _⟩ | ⟨rfl, rfl⟩
    · have different : name ≠ left := by
        rintro rfl
        have distinct := nodup.1
        rw [rotated, List.nodup_append] at distinct
        exact distinct.2.2 _ (List.mem_of_getElem? ‹front[position]? = some name›) _
          List.mem_cons_self rfl
      rw [Function.update_of_ne different, old, if_pos inside, if_pos (by omega)]
    · have following : state.chunks.getD (front.length + 1) 0 = state.nameIndex := by
        rw [chunks, List.getD_eq_getElem?_getD, ← length,
          List.getElem?_append_right (Nat.le_refl _), Nat.sub_self, named]
        rfl
      rw [Function.update_self, old, if_neg (Nat.lt_irrefl _), if_pos (Nat.lt_succ_self _),
        List.append_nil, following]
  · change (state.append ofd _).files (state.append ofd _).current = _
    have different : state.current ≠ left := by
      rintro rfl
      exact nodup.2.2 _ (rotated ▸ List.mem_append_right _ List.mem_cons_self) _
        List.mem_cons_self rfl
    rw [files, sameCurrent, Function.update_of_ne different, laid.back, sameRotated]

end Laid

theorem append_eq {fd name : Nat} (open' : state.fds fd = some name) (bytes : List UInt8) :
    state.append fd bytes =
      { state with files := Function.update state.files name (state.files name ++ bytes) } := by
  simp only [append, open']

namespace Placed

theorem current_mem (state : OutputFile) : state.current ∈ state.chunks :=
  List.mem_append_right _ List.mem_cons_self

theorem writev (placed : Placed options start state) (iov : List (List UInt8)) :
    Placed options start (state.writev options iov) := by
  simp only [OutputFile.writev, append_eq placed.writer]
  have other (fresh : state.nameIndex ∉ state.chunks) :
      Function.update state.files state.current (state.files state.current ++ iov.flatten)
        state.nameIndex = state.files state.nameIndex := by
    apply Function.update_of_ne
    intro same
    exact fresh (same ▸ current_mem state)
  refine ⟨placed.named, placed.used, placed.nodup, placed.writer, ?_⟩
  have stage := placed.stage
  dsimp only
  cases place : state.thread with
  | idle => trivial
  | opened ofd nfd | headed ofd nfd =>
      rw [place] at stage
      obtain ⟨same, different, open', fresh, content⟩ := stage
      exact ⟨same, different, open', fresh, (other fresh).trans content⟩
  | swapped ofd | linked ofd | footed ofd =>
      rw [place] at stage
      exact stage

theorem nextIndex_eq (placed : Placed options start state) (positive : 0 < options.maxCount) :
    state.nextIndex options = (start + (state.attempts + 1)) % options.maxCount := by
  have bound := Nat.mod_lt (start + state.attempts) positive
  rw [nextIndex, placed.named, ← Nat.add_assoc, Nat.add_mod (start + state.attempts) 1]
  split
  · have last : (start + state.attempts) % options.maxCount + 1 = options.maxCount := by omega
    by_cases one : options.maxCount = 1
    · rw [one, Nat.mod_one]
    · rw [Nat.mod_eq_of_lt (show 1 < options.maxCount by omega), last, Nat.mod_self]
  · rw [Nat.mod_eq_of_lt (show 1 < options.maxCount by omega)]
    exact (Nat.mod_eq_of_lt (by omega)).symm

/-- With fewer attempts than names, the next name has not been used. -/
theorem nextIndex_fresh (placed : Placed options start state)
    (few : state.attempts + 1 < options.maxCount) : state.nextIndex options ∉ state.chunks := by
  intro member
  obtain ⟨number, bound, same⟩ := placed.used _ member
  rw [placed.nextIndex_eq (by omega)] at same
  have equal : state.attempts + 1 ≡ number [MOD options.maxCount] :=
    Nat.ModEq.add_left_cancel' start same
  rw [Nat.ModEq, Nat.mod_eq_of_lt few, Nat.mod_eq_of_lt (by omega)] at equal
  omega

theorem openChunk (placed : Placed options start state) (few : state.attempts + 1 < options.maxCount)
    {nfd : Option Nat} (unused : ∀ fd ∈ nfd, state.fds fd = none) :
    Placed options start (state.openChunk options nfd) := by
  have named := placed.nextIndex_eq (by omega)
  have used (name : Nat) (member : name ∈ state.chunks) : ∃ number ≤ state.attempts + 1,
      name = (start + number) % options.maxCount := by
    obtain ⟨number, bound, same⟩ := placed.used name member
    exact ⟨number, Nat.le_succ_of_le bound, same⟩
  cases nfd with
  | none => exact ⟨named, used, placed.nodup, placed.writer, trivial⟩
  | some nfd =>
      have closed := unused nfd rfl
      have different : nfd ≠ state.fd := by
        rintro rfl
        cases closed.symm.trans placed.writer
      refine ⟨named, used, placed.nodup, ?_, ?_⟩
      · exact (Function.update_of_ne different.symm _ _).trans placed.writer
      · exact ⟨rfl, different, Function.update_self _ _ _, placed.nextIndex_fresh few,
          Function.update_self _ _ _⟩

theorem writeHeader (placed : Placed options start state) {ofd nfd : Nat}
    (place : state.thread = .opened ofd nfd) (failing : Option Nat) :
    Placed options start (state.writeHeader options ofd nfd failing) := by
  obtain ⟨same, different, open', fresh, empty⟩ := placed.at place
  simp only [OutputFile.writeHeader, append_eq open']
  split
  · refine ⟨placed.named, placed.used, placed.nodup, ?_, trivial⟩
    exact (Function.update_of_ne different.symm _ _).trans placed.writer
  · rename_i succeeded
    refine ⟨placed.named, placed.used, placed.nodup, placed.writer, same, different, open', fresh, ?_⟩
    have header := send_accepted (eq_false_of_ne_true succeeded)
    dsimp only
    rw [Function.update_self, empty, List.nil_append, header]

theorem swap (placed : Placed options start state) {ofd nfd : Nat}
    (place : state.thread = .headed ofd nfd) : Placed options start (state.swap ofd nfd) := by
  obtain ⟨rfl, different, open', fresh, -⟩ := placed.at place
  have chunksEq : (state.swap state.fd nfd).chunks = state.chunks ++ [state.nameIndex] := rfl
  refine ⟨placed.named, ?_, ?_, open', different.symm, rfl, state.rotated, state.current, rfl,
    placed.writer⟩
  · intro name member
    rcases List.mem_append.mp (chunksEq ▸ member) with old | new
    · exact placed.used name old
    · rw [List.mem_singleton.mp new]
      exact ⟨state.attempts, Nat.le_refl _, placed.named⟩
  · rw [chunksEq, List.nodup_append]
    refine ⟨placed.nodup, List.nodup_singleton _, fun first member second new => ?_⟩
    rw [List.mem_singleton.mp new]
    exact fun same => fresh (same ▸ member)

theorem writeFooter (placed : Placed options start state) {ofd : Nat}
    (place : state.thread = .linked ofd) (bytes : List UInt8) :
    Placed options start { state.append ofd bytes with thread := .footed ofd } := by
  obtain ⟨different, -, front, left, -, open'⟩ := placed.at place
  rw [append_eq open']
  exact ⟨placed.named, placed.used, placed.nodup, placed.writer, different⟩

theorem close (placed : Placed options start state) {ofd : Nat}
    (place : state.thread = .footed ofd) : Placed options start (state.closeFd ofd).leave := by
  have different : ofd ≠ state.fd := placed.at place
  refine ⟨placed.named, placed.used, placed.nodup, ?_, trivial⟩
  exact (Function.update_of_ne different.symm _ _).trans placed.writer

end Placed

/-- Names and descriptors are where they belong, and the chunks hold the
stream. -/
def Kept (options : FileOptions) (start : Nat) (state : OutputFile) : Prop :=
  Placed options start state ∧ ∃ older last, Laid options state older last

theorem Kept.step (kept : Kept options start state) (action : FileAction)
    (few : (state.act options action).attempts < options.maxCount) :
    Kept options start (state.act options action) := by
  obtain ⟨placed, older, last, laid⟩ := kept
  cases action with
  | writev iov => exact ⟨placed.writev iov, older, last ++ iov, laid.writev placed iov⟩
  | openChunk nfd =>
      simp only [act] at few ⊢
      split at few
      · rename_i enabled
        rw [if_pos enabled]
        have bound : state.attempts + 1 < options.maxCount := by
          cases nfd <;> exact few
        have fresh := placed.nextIndex_fresh bound
        refine ⟨placed.openChunk bound enabled.2.2, older, last, ?_⟩
        cases nfd with
        | none =>
            refine laid.frame rfl rfl ?_ rfl fun _ _ => rfl
            simp only [OutputFile.openChunk, leave, OutputFile.footed, enabled.1]
        | some nfd =>
            refine laid.frame rfl rfl ?_ rfl fun name member => ?_
            · simp only [OutputFile.openChunk, OutputFile.footed, enabled.1]
            · have different : name ≠ state.nextIndex options := fun same => fresh (same ▸ member)
              exact Function.update_of_ne different _ _
      · rename_i disabled
        rw [if_neg disabled]
        exact ⟨placed, older, last, laid⟩
  | writeHeader failing =>
      simp only [act]
      split
      · rename_i ofd nfd place
        obtain ⟨-, -, open', fresh, -⟩ := placed.at place
        refine ⟨placed.writeHeader place failing, older, last, ?_⟩
        simp only [OutputFile.writeHeader, append_eq open']
        have others (name : Nat) (member : name ∈ state.chunks) (bytes : List UInt8) :
            Function.update state.files state.nameIndex bytes name = state.files name := by
          have different : name ≠ state.nameIndex := fun same => fresh (same ▸ member)
          exact Function.update_of_ne different _ _
        split
        · refine laid.frame rfl rfl ?_ rfl fun name member => others name member _
          simp only [leave, closeFd, OutputFile.footed, place]
        · refine laid.frame rfl rfl ?_ rfl fun name member => others name member _
          simp only [OutputFile.footed, place]
      · exact ⟨placed, older, last, laid⟩
  | swap =>
      simp only [act]
      split
      · rename_i ofd nfd place
        exact ⟨placed.swap place, older ++ [last], [], laid.swap placed place⟩
      · exact ⟨placed, older, last, laid⟩
  | updateLink =>
      simp only [act]
      split
      · rename_i ofd place
        refine ⟨⟨placed.named, placed.used, placed.nodup, placed.writer, placed.at place⟩, older,
          last, laid.frame rfl rfl ?_ rfl fun _ _ => rfl⟩
        simp only [OutputFile.footed, place]
      · exact ⟨placed, older, last, laid⟩
  | writeFooter =>
      simp only [act]
      split
      · rename_i ofd place
        exact ⟨placed.writeFooter place _, older, last, laid.writeFooter placed place⟩
      · exact ⟨placed, older, last, laid⟩
  | close =>
      simp only [act]
      split
      · rename_i ofd place
        refine ⟨placed.close place, older, last, laid.frame rfl rfl ?_ rfl fun _ _ => rfl⟩
        simp only [leave, closeFd, OutputFile.footed, place]
      · exact ⟨placed, older, last, laid⟩

theorem attempts_le (options : FileOptions) (state : OutputFile) (action : FileAction) :
    state.attempts ≤ (state.act options action).attempts := by
  have appended (fd : Nat) (bytes : List UInt8) :
      (state.append fd bytes).attempts = state.attempts := by
    rw [append]
    split <;> rfl
  cases action with
  | writev iov => exact (appended _ _).ge
  | openChunk nfd =>
      simp only [act]
      split
      · cases nfd <;> exact Nat.le_succ _
      · exact Nat.le_refl _
  | writeHeader failing =>
      simp only [act]
      split
      · simp only [OutputFile.writeHeader]
        split <;> exact (appended _ _).ge
      · exact Nat.le_refl _
  | writeFooter =>
      simp only [act]
      split
      · exact (appended _ _).ge
      · exact Nat.le_refl _
  | swap | updateLink | close =>
      simp only [act]
      split <;> exact Nat.le_refl _

/-- Two chunks, with a rotation that fails in between. -/
def rotationRun : List FileAction :=
  [.writev [[1], [2]], .openChunk none, .writev [[3]], .openChunk (some 4), .writeHeader none,
    .writev [[4]], .swap, .writev [[5]], .updateLink, .writeFooter, .close]

end OutputFile

end Hogl.Output
