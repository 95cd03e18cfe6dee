import Hogl.Engine.Outputs
import Hogl.Output.Chunks
import Hogl.Raw.Truncation

namespace Hogl

open Hogl.Data

/-! # From the rings to the raw log

The engine, the raw format, the buffer of the output and the chunks of its
file, with the clients and the rotation thread acting at any time.  At every
moment the chunks together are the encoding of what the output was given, up
to what the buffer and the engine thread still hold.
-/

namespace Raw

/-! ## The calls of the packer -/

/-- What `raw_packer::add_blob` pushes. -/
def blobPieces (width : Nat) (data : List UInt8) (len : Nat) : List (List UInt8) :=
  let n := min len (2 ^ (8 * width) - 1)
  [leBytes width n, data.take n]

def strPieces (width : Nat) (str : List UInt8) : List (List UInt8) := blobPieces width str str.length

def argPieces (strings : UInt64 → List UInt8) (record : Record) (index : Nat) :
    List (List UInt8) :=
  match record.getArgType index with
  | .none => []
  | .xdump | .raw => blobPieces 4 (record.getArgData index) (record.dataLen index)
  | .cstr => blobPieces 2 (record.getArgData index) (record.dataLen index)
  | .gstr => strPieces 2 (strings (record.getArgVal64 index))
  | .int32 | .uint32 => [leBytes 4 (record.getArgVal32 index).toNat]
  | _ => [leBytes 8 (record.getArgVal64 index).toNat]

def argsPiecesFrom (strings : UInt64 → List UInt8) (record : Record) :
    Nat → Nat → List (List UInt8)
  | 0, _ => []
  | count + 1, index =>
      if record.getArgType index = .none then []
      else argPieces strings record index ++ argsPiecesFrom strings record count (index + 1)

/-- The arguments of the calls of `push_back` that `raw_packer::pack` makes. -/
def pieces (strings : UInt64 → List UInt8) (data : FormatData) : List (List UInt8) :=
  [leBytes 8 data.record.timestamp.toNat, leBytes 8 data.record.seqnum.toNat] ++
    strPieces 1 data.ringName ++ strPieces 1 data.areaName ++ strPieces 1 data.sectName ++
    leBytes 8 data.record.argtype.toNat :: argsPiecesFrom strings data.record Record.nargs 0

variable (strings : UInt64 → List UInt8) (record : Record)

theorem argPieces_flatten (index : Nat) :
    (argPieces strings record index).flatten = addArg strings record index := by
  rw [argPieces, addArg]
  split <;> simp [blobPieces, strPieces, addBlob, addStr, *]

theorem argsPiecesFrom_flatten (count index : Nat) :
    (argsPiecesFrom strings record count index).flatten =
      addArgsFrom strings record count index := by
  induction count generalizing index with
  | zero => rfl
  | succ count ih =>
      rw [argsPiecesFrom, addArgsFrom]
      split
      · rfl
      · rw [List.flatten_append, argPieces_flatten, ih]

theorem pieces_flatten (data : FormatData) :
    (pieces strings data).flatten = pack strings data := by
  simp only [pieces, pack, addArgs, strPieces, blobPieces, addStr, addBlob, List.flatten_append,
    List.flatten_cons, List.flatten_nil, argsPiecesFrom_flatten, List.append_nil, List.append_assoc]

end Raw

namespace Output

open Hogl.Ring Hogl.Polling Hogl.Raw

/-- A call of the engine thread on its output buffer. -/
inductive OutputCall where
  | push (piece : List UInt8)
  | flush
deriving Repr, DecidableEq

def OutputCall.data : OutputCall → List UInt8
  | .push piece => piece
  | .flush => []

/-- The call on a buffer whose stream takes all it is offered. -/
def OutputCall.onBuffer (buffer : Ostrbuf) : OutputCall → BufferCall
  | .push piece => .pushBack piece (.accepted (buffer.data ++ piece).length)
  | .flush => .flush [] (.accepted buffer.data.length)

structure Pipeline where
  engine : Engine
  /-- The calls that the engine thread makes before its next step. -/
  todo : List OutputCall
  buffer : Ostrbuf
  file : OutputFile

inductive PipelineAction where
  /-- A step of the engine thread, once its output calls are made. -/
  | engine (trylock : Bool)
  /-- The next output call of the engine thread. -/
  | emit
  | client (op : Op)
  /-- A step of the rotation thread. -/
  | rotate (action : FileAction)
deriving Repr, DecidableEq

/-- The output file under `format_raw`, which has neither header nor footer. -/
def rawOptions (maxSize maxCount : Nat) : FileOptions where
  maxSize
  maxCount
  header _ := []
  footer _ := []

/-- The chunks in rotation order, one behind the other. -/
def OutputFile.log (file : OutputFile) : List UInt8 := (file.chunks.map file.files).flatten

theorem OutputFile.act_written {options : FileOptions} (file : OutputFile)
    (action : FileAction) (rotating : ∀ iov, action ≠ .writev iov) :
    (file.act options action).written = file.written := by
  have appended (fd : Nat) (bytes : List UInt8) : (file.append fd bytes).written = file.written := by
    rw [OutputFile.append]
    split <;> rfl
  cases action with
  | writev iov => exact absurd rfl (rotating iov)
  | openChunk nfd =>
      simp only [OutputFile.act]
      split
      · cases nfd <;> rfl
      · rfl
  | writeHeader failing =>
      simp only [OutputFile.act]
      split
      · simp only [OutputFile.writeHeader]
        split <;> exact appended _ _
      · rfl
  | writeFooter =>
      simp only [OutputFile.act]
      split
      · exact appended _ _
      · rfl
  | swap | updateLink | close =>
      simp only [OutputFile.act]
      split <;> rfl

/-- Without headers and footers the chunks hold nothing else than what was
written. -/
theorem OutputFile.Kept.log {maxSize maxCount start : Nat} {file : OutputFile}
    (kept : Kept (rawOptions maxSize maxCount) start file) :
    file.log = file.written.flatten := by
  obtain ⟨-, older, last, laid⟩ := kept
  obtain ⟨bodies, count, stream, holds⟩ := laid.intact
  have chunks : file.chunks.map file.files = bodies.map List.flatten := by
    apply List.ext_getElem
    · rw [List.length_map, List.length_map, count]
    · intro position inside inside'
      rw [List.length_map] at inside inside'
      have bytes := holds position _ _ (List.getElem?_eq_getElem inside)
        (List.getElem?_eq_getElem inside')
      have leader (name : Nat) :
          OutputFile.leader (rawOptions maxSize maxCount) position name = [] := by
        rw [OutputFile.leader]
        split <;> rfl
      have trailer : file.trailer (rawOptions maxSize maxCount) position = [] := by
        rw [OutputFile.trailer]
        split
        · rfl
        · rfl
      rw [List.getElem_map, List.getElem_map, bytes, leader, trailer, List.nil_append,
        List.append_nil]
  rw [OutputFile.log, chunks, ← List.flatten_flatten, stream]

theorem OutputFile.create_kept {options : FileOptions} (files : Nat → List UInt8) (fd : Nat)
    {start : Nat} (inRange : start < options.maxCount) : Kept options start (create files fd start) := by
  refine ⟨⟨?_, ?_, ?_, ?_, trivial⟩, [], [], ⟨rfl, rfl, ?_, ?_⟩⟩
  · exact (Nat.mod_eq_of_lt inRange).symm
  · intro name member
    rw [List.mem_singleton.mp member]
    exact ⟨0, Nat.le_refl _, (Nat.mod_eq_of_lt inRange).symm⟩
  · exact List.nodup_singleton _
  · exact Function.update_self fd (some start) fun _ => none
  · intro position name body found
    cases found
  · exact Function.update_self start [] files

/-- A poll ends at its last step, which logs nothing. -/
theorem EngineStep.toIdle {std : StdSort} {engine next : Engine}
    (step : engine.EngineStep std next) (idle : next.pc = .idle) :
    engine.pc = .finish ∧ next.shared.trace = engine.shared.trace := by
  cases step with
  | finished place => exact ⟨place, rfl⟩
  | polled =>
      simp only [Engine.processRings] at idle
      split at idle <;> cases idle
  | reset =>
      simp only [Engine.goto] at idle
      split at idle <;> cases idle
  | @popped left caller te rest entry owner _ _ found valid _ =>
      have same := (@Engine.flushEntry_handed (engine.popTo left caller rest) te entry owner found
        valid).pc
      cases idle.symm.trans same
  | @returned _ caller => cases caller <;> cases idle
  | @drained i entry owner passed _ place =>
      have same := (Engine.flushRecord_handed (engine.setEntry i { entry with
        pit := engine.beyond entry owner passed }) owner
          (slotOf (engine.obj owner).ring.capacity passed)).pc
      cases idle.symm.trans (same.trans place)
  | reaped _ found valid =>
      rw [Engine.killOrphan_eq found valid] at idle
      cases idle
  | _ => cases idle

namespace Pipeline

section Steps

variable (std : StdSort) (literals : Literals) (options : FileOptions) (pipe : Pipeline)

/-- The ring names as the engine reads them. -/
def names (ring : RingId) : List UInt8 := (pipe.engine.obj ring).name

def engineStep (trylock : Bool) : Pipeline :=
  match pipe.todo with
  | [] =>
      let engine := pipe.engine.step std trylock
      let logged := engine.shared.trace.drop pipe.engine.shared.trace.length
      let items := logged.filterMap (literals.processed pipe.names)
      -- `process_rings` ends with a flush of the output.
      let last := if pipe.engine.pc = .finish then [.flush] else []
      { pipe with
        engine
        todo := (items.flatMap (pieces literals.strings)).map .push ++ last }
  | _ :: _ => pipe

def emit : Pipeline :=
  match pipe.todo with
  | [] => pipe
  | call :: rest =>
      let bufferCall := call.onBuffer pipe.buffer
      { pipe with
        todo := rest
        buffer := pipe.buffer.act .file bufferCall
        file :=
          if pipe.buffer.offered .file bufferCall = [] then pipe.file
          else pipe.file.writev options ([pipe.buffer.data, call.data].filter (· ≠ [])) }

def rotate : FileAction → Pipeline
  | .writev _ => pipe
  | action => { pipe with file := pipe.file.act options action }

def act : PipelineAction → Pipeline
  | .engine trylock => pipe.engineStep std literals trylock
  | .emit => pipe.emit options
  | .client op => { pipe with engine.shared := pipe.engine.shared.apply op }
  | .rotate action => pipe.rotate options action

def after (start : Pipeline) (actions : List PipelineAction) : Pipeline :=
  runs (act std literals options) start actions

end Steps

/-- A new engine on a new output file. -/
def create (engine : Engine) (bufferCapacity : UInt32) (allocated : Bool)
    (files : Nat → List UInt8) (fd start : Nat) : Pipeline where
  engine
  todo := []
  buffer := .create bufferCapacity allocated
  file := .create files fd start

/-! ## One output call -/

variable {literals : Literals} {options : FileOptions}

theorem offered_onBuffer (buffer : Ostrbuf) (call : OutputCall) :
    buffer.offered .file (call.onBuffer buffer) =
      match call with
      | .push piece => if buffer.room < piece.length then buffer.data ++ piece else []
      | .flush => buffer.data := by
  cases call with
  | push piece => simp [OutputCall.onBuffer, Ostrbuf.offered]
  | flush => simp [OutputCall.onBuffer, Ostrbuf.offered]

theorem offered_eq {buffer : Ostrbuf} {call : OutputCall}
    (something : buffer.offered .file (call.onBuffer buffer) ≠ []) :
    buffer.offered .file (call.onBuffer buffer) = buffer.data ++ call.data := by
  rw [offered_onBuffer] at something ⊢
  cases call with
  | push piece =>
      simp only at something ⊢
      split at something
      · rename_i full
        exact if_pos full
      · exact absurd rfl something
  | flush => exact (List.append_nil _).symm

/-- A stream that takes all it is offered has taken what left the buffer. -/
theorem act_onBuffer (buffer : Ostrbuf) (call : OutputCall) :
    (buffer.act .file (call.onBuffer buffer)).held = buffer.held ++ call.data ∧
      (buffer.act .file (call.onBuffer buffer)).pushed = buffer.pushed ++ call.data ∧
      (buffer.act .file (call.onBuffer buffer)).accepted =
        buffer.accepted ++ buffer.offered .file (call.onBuffer buffer) ∧
      (call = .flush → (buffer.act .file (call.onBuffer buffer)).data = []) := by
  have offers (data : List UInt8) :
      (buffer.offer data (.accepted (buffer.data ++ data).length)).accepted =
          buffer.accepted ++ (buffer.data ++ data) ∧
        (buffer.offer data (.accepted (buffer.data ++ data).length)).data = [] := by
    by_cases nothing : buffer.data ++ data = []
    · simp only [Ostrbuf.offer, nothing, if_true, List.append_nil, and_self]
    · simp only [Ostrbuf.offer, if_neg nothing, List.take_length, and_self]
  rw [offered_onBuffer]
  cases call with
  | push piece =>
      obtain ⟨accepted, data⟩ := offers piece
      simp only [OutputCall.onBuffer, OutputCall.data, Ostrbuf.act, Ostrbuf.pushBack, Ostrbuf.held]
      split
      · simp only [Ostrbuf.doFlush, accepted, data, List.append_nil, List.append_assoc]
        exact ⟨trivial, trivial, trivial, OutputCall.noConfusion⟩
      · simp only [List.append_nil, List.append_assoc]
        exact ⟨trivial, trivial, trivial, OutputCall.noConfusion⟩
  | flush =>
      obtain ⟨accepted, data⟩ := offers []
      rw [List.append_nil] at accepted data
      simp only [OutputCall.onBuffer, OutputCall.data, Ostrbuf.act, Ostrbuf.held, Ostrbuf.doFlush,
        accepted, data, List.append_nil, implies_true, and_self]

/-! ## The invariant -/

/-- Where the bytes of what the output was given stand: in the chunks, in the
buffer, or still to be pushed. -/
structure Piped (literals : Literals) (options : FileOptions) (names : RingId → List UInt8)
    (start : Nat) (pipe : Pipeline) : Prop where
  sound : pipe.engine.Sound
  noted : pipe.engine.Noted names
  passed : pipe.buffer.accepted = pipe.file.written.flatten
  held : pipe.buffer.held = pipe.buffer.pushed
  bytes : pipe.buffer.pushed ++ pipe.todo.flatMap OutputCall.data =
    (pipe.engine.outputs literals names).flatMap (pack literals.strings)
  file : OutputFile.Kept options start pipe.file
  rested : pipe.engine.pc = .idle →
    (pipe.todo = [] ∧ pipe.buffer.data = []) ∨ pipe.todo = [.flush]

namespace Piped

variable {names : RingId → List UInt8} {start : Nat} {pipe : Pipeline}

theorem outputs_append {engine next : Engine} {events : List Event}
    (trace : next.shared.trace = engine.shared.trace ++ events) :
    next.outputs literals names =
      engine.outputs literals names ++ events.filterMap (literals.processed names) := by
  rw [Engine.outputs, trace, List.filterMap_append, Engine.outputs]

theorem pushes_data (items : List FormatData) :
    ((items.flatMap (pieces literals.strings)).map OutputCall.push).flatMap OutputCall.data =
      items.flatMap (pack literals.strings) := by
  rw [List.flatMap_map]
  change (items.flatMap (pieces literals.strings)).flatMap id = _
  rw [List.flatMap_assoc]
  congr 1
  funext item
  rw [List.flatMap_id, pieces_flatten]

/-- The chunks, the buffer and the pending calls are the encoded output. -/
theorem stream {maxSize maxCount : Nat}
    (piped : Piped literals (rawOptions maxSize maxCount) names start pipe) :
    pipe.file.log ++ (pipe.buffer.data ++ pipe.todo.flatMap OutputCall.data) =
      (pipe.engine.outputs literals names).flatMap (pack literals.strings) := by
  rw [piped.file.log, ← piped.passed, ← piped.bytes, ← piped.held, Ostrbuf.held, List.append_assoc]

theorem client (piped : Piped literals options names start pipe) (op : Op)
    (noted : Engine.Noted names { pipe.engine with shared := pipe.engine.shared.apply op }) :
    Piped literals options names start
      { pipe with engine.shared := pipe.engine.shared.apply op } := by
  obtain ⟨events, trace, byClient⟩ := (pipe.engine.shared.apply_step op).trace
  have silent : events.filterMap (literals.processed names) = [] := by
    rw [List.filterMap_eq_nil_iff]
    intro event member
    have client := byClient event member
    cases event <;> first | rfl | cases client
  have same := @outputs_append literals names pipe.engine
    { pipe.engine with shared := pipe.engine.shared.apply op } events trace
  refine ⟨piped.sound.act .insertion (.client op), noted, piped.passed, piped.held, ?_, piped.file,
    piped.rested⟩
  rw [same, silent, List.append_nil]
  exact piped.bytes

theorem engine (std : StdSort) (trylock : Bool) (piped : Piped literals options names start pipe)
    (noted : (pipe.engine.step std trylock).Noted names) :
    Piped literals options names start (pipe.engineStep std literals trylock) := by
  rw [engineStep]
  split
  · rename_i ready
    have shape := piped.sound.tracked.shape std trylock
    obtain ⟨events, trace, -⟩ := shape.trace
    have sameNames : pipe.names = names := funext piped.noted.named
    have logged : (pipe.engine.step std trylock).shared.trace.drop
        pipe.engine.shared.trace.length = events := by
      rw [trace, List.drop_left]
    simp only [logged, sameNames]
    refine ⟨piped.sound.act std (.engine trylock), noted, piped.passed, piped.held, ?_, piped.file,
      fun idle => ?_⟩
    · have before := piped.bytes
      rw [ready, List.flatMap_nil, List.append_nil] at before
      have last : (if pipe.engine.pc = .finish then [OutputCall.flush] else []).flatMap
          OutputCall.data = [] := by
        split <;> rfl
      change pipe.buffer.pushed ++ _ = (Engine.outputs literals names _).flatMap _
      rw [outputs_append trace, List.flatMap_append, List.flatMap_append, pushes_data, last,
        List.append_nil, before]
    · obtain ⟨finish, same⟩ := EngineStep.toIdle shape idle
      obtain rfl : events = [] := List.append_cancel_left
        (trace.symm.trans (same.trans (List.append_nil _).symm))
      right
      simp only [List.filterMap_nil, List.flatMap_nil, List.map_nil, List.nil_append, finish,
        if_true]
  · exact piped

theorem emit (piped : Piped literals options names start pipe)
    (few : (pipe.emit options).file.attempts < options.maxCount) :
    Piped literals options names start (pipe.emit options) := by
  rw [Pipeline.emit] at few ⊢
  split
  · exact piped
  · rename_i call rest pending
    rw [pending] at few
    obtain ⟨held, pushed, accepted, emptied⟩ := act_onBuffer pipe.buffer call
    refine ⟨piped.sound, piped.noted, ?_, ?_, ?_, ?_, fun idle => ?_⟩
    · simp only [accepted, piped.passed]
      split
      · rename_i nothing
        rw [nothing, List.append_nil]
      · rename_i something
        rw [offered_eq something, OutputFile.writev, List.flatten_append,
          List.flatten_filter_ne_nil]
        simp only [List.flatten_cons, List.flatten_nil, List.append_nil]
    · exact held.trans ((congrArg (· ++ call.data) piped.held).trans pushed.symm)
    · have before := piped.bytes
      rw [pending, List.flatMap_cons, ← List.append_assoc] at before
      simp only [pushed]
      exact before
    · simp only at few ⊢
      split
      · exact piped.file
      · rename_i something
        rw [if_neg something] at few
        exact piped.file.step (.writev _) few
    · rcases piped.rested idle with ⟨none, -⟩ | last
      · rw [pending] at none
        cases none
      · rw [pending] at last
        obtain ⟨rfl, rfl⟩ := List.cons.inj last
        exact .inl ⟨rfl, emptied rfl⟩

theorem rotate (piped : Piped literals options names start pipe) (action : FileAction)
    (few : (pipe.rotate options action).file.attempts < options.maxCount) :
    Piped literals options names start (pipe.rotate options action) := by
  have rotated (rotating : ∀ iov, action ≠ .writev iov)
      (few : (pipe.file.act options action).attempts < options.maxCount) :
      Piped literals options names start { pipe with file := pipe.file.act options action } :=
    ⟨piped.sound, piped.noted, piped.passed.trans (congrArg List.flatten
      (OutputFile.act_written pipe.file action rotating).symm), piped.held, piped.bytes,
      piped.file.step action few, piped.rested⟩
  cases action with
  | writev iov => exact piped
  | openChunk | writeHeader | swap | updateLink | writeFooter | close =>
      exact rotated (fun _ => FileAction.noConfusion) few

end Piped

/-! ## Whole runs -/

theorem engine_ran (std : StdSort) (start : Pipeline) (actions : List PipelineAction) :
    ∃ taken, (start.after std literals options actions).engine = start.engine.after std taken := by
  induction actions using List.reverseRecOn with
  | nil => exact ⟨[], rfl⟩
  | append_singleton actions last ih =>
      obtain ⟨taken, ran⟩ := ih
      rw [after, runs_concat]
      cases last with
      | engine trylock =>
          simp only [act, engineStep]
          split
          · refine ⟨taken ++ [.engine trylock], ?_⟩
            rw [Engine.after, runs_concat]
            exact congrArg (·.step std trylock) ran
          · exact ⟨taken, ran⟩
      | client op =>
          refine ⟨taken ++ [.client op], ?_⟩
          rw [Engine.after, runs_concat]
          exact congrArg (fun engine => { engine with shared := engine.shared.apply op }) ran
      | emit =>
          refine ⟨taken, Eq.trans ?_ ran⟩
          simp only [act, emit]
          split <;> rfl
      | rotate action =>
          refine ⟨taken, Eq.trans ?_ ran⟩
          cases action <;> rfl

theorem attempts_le (std : StdSort) (pipe : Pipeline) (action : PipelineAction) :
    pipe.file.attempts ≤ (pipe.act std literals options action).file.attempts := by
  cases action with
  | engine trylock =>
      simp only [act, engineStep]
      split <;> exact Nat.le_refl _
  | client op => exact Nat.le_refl _
  | emit =>
      simp only [act, emit]
      split
      · exact Nat.le_refl _
      · simp only
        split
        · exact Nat.le_refl _
        · exact OutputFile.attempts_le options pipe.file (.writev _)
  | rotate action =>
      have rotated := OutputFile.attempts_le options pipe.file action
      cases action with
      | writev => exact Nat.le_refl _
      | openChunk | writeHeader | swap | updateLink | writeFooter | close => exact rotated

theorem after_piped (std : StdSort) (capacity : UInt32) (tsoDisabled : Bool) (timesource : UInt64)
    {rings : RingId → RingObj} (fresh : ∀ ring, (rings ring).Fresh) (bufferCapacity : UInt32)
    (allocated : Bool) (files : Nat → List UInt8) (fd : Nat) {start : Nat}
    (inRange : start < options.maxCount) (actions : List PipelineAction)
    (few : ((create (.create capacity tsoDisabled timesource rings) bufferCapacity allocated files
      fd start).after std literals options actions).file.attempts < options.maxCount) :
    Piped literals options (fun ring => (rings ring).name) start
      ((create (.create capacity tsoDisabled timesource rings) bufferCapacity allocated files fd
        start).after std literals options actions) := by
  refine @runs_invariant_of _ _ (act std literals options)
    (fun pipe => ∃ taken, pipe.engine =
      (Engine.create capacity tsoDisabled timesource rings).after std taken)
    (fun pipe => pipe.file.attempts < options.maxCount) _ _ (fun earlier => ?_) ?_ ?_ ?_ actions few
  · exact engine_ran std (create (.create capacity tsoDisabled timesource rings) bufferCapacity
      allocated files fd start) earlier
  · exact fun pipe action _ few => Nat.lt_of_le_of_lt (attempts_le std pipe action) few
  · intro _
    refine ⟨Engine.create_sound capacity tsoDisabled timesource fresh,
      Engine.after_noted std capacity tsoDisabled timesource fresh [], rfl, rfl, rfl,
      OutputFile.create_kept files fd inRange, fun _ => .inl ⟨rfl, rfl⟩⟩
  · rintro pipe action ⟨taken, ran⟩ few piped
    have noted (last : Action) : ((Engine.act std pipe.engine last)).Noted
        fun ring => (rings ring).name := by
      have longer := Engine.after_noted std capacity tsoDisabled timesource fresh (taken ++ [last])
      rw [Engine.after, runs_concat] at longer
      rw [ran]
      exact longer
    cases action with
    | engine trylock => exact piped.engine std trylock (noted (.engine trylock))
    | client op => exact piped.client op (noted (.client op))
    | emit => exact piped.emit few
    | rotate action => exact piped.rotate action few

end Pipeline

/-! ## Reading the log back -/

/-- An engine on an output file under `format_raw`. -/
structure RawLog where
  literals : Literals
  std : StdSort
  tsoCapacity : UInt32
  tsoDisabled : Bool
  /-- A smaller TSO buffer overflows. -/
  ordered : tsoDisabled = true ∨ 2 ≤ tsoSize tsoCapacity
  timesource : UInt64
  rings : RingId → RingObj
  fresh : ∀ ring, (rings ring).Fresh
  printable : ∀ ring, PrintableName (rings ring).name
  bufferCapacity : UInt32
  allocated : Bool
  maxSize : Nat
  maxCount : Nat
  files : Nat → List UInt8
  fd : Nat
  /-- The index of the first chunk. -/
  start : Nat
  inRange : start < maxCount

namespace RawLog

variable (log : RawLog)

def engine : Engine := .create log.tsoCapacity log.tsoDisabled log.timesource log.rings

def created : Pipeline :=
  .create log.engine log.bufferCapacity log.allocated log.files log.fd log.start

def run (actions : List PipelineAction) : Pipeline :=
  log.created.after log.std log.literals (rawOptions log.maxSize log.maxCount) actions

def names (ring : RingId) : List UInt8 := (log.rings ring).name

/-- What the output was given in a run, in its order. -/
def items (actions : List PipelineAction) : List FormatData :=
  (log.run actions).engine.outputs log.literals log.names

/-- The output gets the records of a ring in the order they were committed in. -/
theorem run_outputs {actions : List PipelineAction} {ring : RingId}
    (bounded : ∀ record ∈ (log.run actions).engine.shared.committed ring,
      record.timestamp.toNat + slotCount (log.rings ring).ring.capacity ≤ 2 ^ 64) :
    outputTo ring (log.run actions).engine.shared.trace =
        ((log.run actions).engine.shared.flushed ring).filter (fun record => !record.special) ∧
      (log.run actions).engine.shared.flushed ring <+:
        (log.run actions).engine.shared.committed ring := by
  obtain ⟨taken, ran⟩ := @Pipeline.engine_ran log.literals
    (rawOptions log.maxSize log.maxCount) log.std log.created actions
  rw [show (log.run actions).engine = _ from ran] at bounded ⊢
  exact Engine.after_outputs log.std log.tsoCapacity log.tsoDisabled log.timesource log.fresh taken
    ring bounded

/-- The commits of a trace. -/
def commits (trace : List Event) : List (RingId × Record) :=
  trace.filterMap fun
    | .committed ring record => some (ring, record)
    | _ => none

theorem mem_commits {trace : List Event} {ring : RingId} {record : Record}
    (member : record ∈ committedTo ring trace) : (ring, record) ∈ commits trace := by
  obtain ⟨event, logged, selected⟩ := List.mem_filterMap.mp member
  refine List.mem_filterMap.mpr ⟨event, logged, ?_⟩
  cases event with
  | committed other committed =>
      simp only [Option.ite_none_right_eq_some, Option.some.injEq] at selected
      rw [selected.1, selected.2]
  | _ => cases selected

/-- A log with a chunk for every write. -/
def smallChunks : RawLog where
  literals := {
    strings _ := []
    literal _ := 1
    timesourceName _ := 1
    stack := List.replicate 128 0
    literalSet _ := by decide
    timesourceNamed _ := by decide
    stackSize := rfl }
  std := .insertion
  tsoCapacity := 4
  tsoDisabled := false
  ordered := by decide
  timesource := 0
  rings _ := .made 3 false (ascii "ring")
  fresh _ := RingObj.made_fresh ⟨2, rfl⟩ _ _
  printable _ := ⟨by decide, by decide, by decide⟩
  bufferCapacity := 64
  allocated := true
  maxSize := 1
  maxCount := 8
  files _ := []
  fd := 3
  start := 0
  inRange := by decide

/-- Two records, with a rotation between the polls that write them. -/
def rotatedRun : List PipelineAction :=
  let post (timestamp : UInt64) : List PipelineAction :=
    [.client (.begin 0 { Post.zeroRecord 256 with timestamp }), .client (.finish 0)]
  let poll (steps : Nat) : List PipelineAction :=
    (List.replicate steps (.engine true :: List.replicate 10 .emit)).flatten
  [.client (.addNamed 0), .client (.markDirty 0)] ++ post 5 ++ poll 12 ++
    [.rotate (.openChunk (some 4)), .rotate (.writeHeader none), .rotate .swap] ++ post 9 ++ poll 11

theorem blank_packable (strings : UInt64 → List UInt8) {maxRecordSize : Nat}
    (room : Record.byteSize ≤ maxRecordSize) {ringName : List UInt8}
    (printable : PrintableName ringName) (timestamp : UInt64) (seqnum : BitVec 52) :
    Packable strings maxRecordSize
      { ringName, record := { Post.zeroRecord 256 with timestamp, seqnum } } := by
  have unset (index : Nat) :
      ({ Post.zeroRecord 256 with timestamp, seqnum } : Record).getArgType index = .none := by
    change ArgType.ofNibble (nibble 0 index) = .none
    rw [nibble_zero]
    rfl
  refine ⟨⟨[], _, Nat.zero_le _, Record.StoredFrom.holds rfl (Nat.zero_le _)
      (fun index _ => unset index) trivial⟩, ?_, printable, ?_, ?_, ?_⟩
  · intro index _ isString
    cases (unset index).symm.trans isString
  · exact (⟨by decide, by decide, by decide⟩ : PrintableName (ascii "INVALID"))
  · exact (⟨by decide, by decide, by decide⟩ : PrintableName (ascii "INVALID"))
  · have nothing : needFrom strings { Post.zeroRecord 256 with timestamp, seqnum } Record.nargs 0 =
        0 := if_pos (unset 0)
    simp only [nothing, Nat.add_zero]
    exact room

end RawLog

end Output

end Hogl
