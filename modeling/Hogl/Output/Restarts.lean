import Hogl.Data.Wheel
import Hogl.Output.Rotation

namespace Hogl.Output

open Hogl.Data

/-! # Restarts

A program that logs into chunks ends somewhere, in order or not, and the next
one goes on behind the chunk that the symbolic link names; `src/output-file.cc`.
Nothing but the files and the link outlives a program. -/

/-- What all programs that log into one set of chunks agree on. -/
structure LogSetup where
  filename : List UInt8
  maxSize : Nat
  maxCount : UInt32
  header : Nat → List (List UInt8)
  footer : Nat → List (List UInt8)
  rounds : Nat
  indexWidth : Nat
  /-- The loop for the width of the index ends. -/
  wide : widthLoop maxCount rounds 10 1 = some indexWidth

namespace LogSetup

variable (setup : LogSetup)

def options : FileOptions := ⟨setup.maxSize, setup.maxCount.toNat, setup.header, setup.footer⟩

def size : Nat := setup.maxCount.toNat

def names : FileName := .split (cstr setup.filename)

/-- The symbolic links, where that of the log names the chunk with this index. -/
def links (link : Nat) (path : List UInt8) : Option (List UInt8) :=
  if path = setup.names.symlink then some (setup.names.updateName setup.indexWidth link) else none

/-- `read_link` can read what `update_link` writes: its buffer is large enough,
and the suffix is not found in the digits. -/
def Readable : Prop :=
  setup.names.symlink.length + setup.indexWidth + 1 < 2 ^ 32 ∧
    (setup.names.nameSufx = [] ∨ ∀ index < setup.size, ∀ place < setup.indexWidth,
      ¬ setup.names.nameSufx <+:
        (padded setup.indexWidth index ++ setup.names.nameSufx).drop place)

end LogSetup

/-- An output file with its chunks, which are numbered through by the attempts
to open them; the index of a chunk is what its number leaves. -/
structure LogFiles where
  file : OutputFile
  /-- The constructor has yet to set the link. -/
  starting : Bool
  /-- The number of the name index (ghost). -/
  number : Nat
  /-- The highest number so far (ghost). -/
  tried : Nat
  /-- The chunks that got into use and what was written into them, the newest
  first (ghost). -/
  chunks : List (Numbered (List UInt8))

inductive LogAction where
  | file (action : FileAction)
  /-- The program is gone, and another one opens its first chunk as `fd`. -/
  | restart (fd : Nat)
  /-- `update_link` in the constructor. -/
  | linkFirst
deriving Repr, DecidableEq

/-- The action opens a chunk, or tries to. -/
def LogAction.tries : LogAction → Bool
  | .file (.openChunk _) | .restart _ => true
  | _ => false

namespace LogFiles

variable (setup : LogSetup) (state : LogFiles)

/-- The newest chunk is not the one that the link names. -/
def unlinked : Bool :=
  state.starting || match state.file.thread with
    | .swapped _ => true
    | _ => false

/-- The chunks from the one on that the link names. -/
def linked : List (Numbered (List UInt8)) :=
  if state.unlinked then state.chunks.tail else state.chunks

/-- Bytes for one of the chunks. -/
def give (position : Nat) (bytes : List UInt8) : LogFiles :=
  { state with chunks := state.chunks.modify position fun chunk =>
      { chunk with value := chunk.value ++ bytes } }

/-- A rotation begins only once the constructor is done. -/
def opens (nfd : Option Nat) : Prop :=
  state.starting = false ∧ state.file.thread = .idle ∧ state.file.rotatePending = true ∧
    ∀ fd ∈ nfd, state.file.fds fd = none

instance (nfd : Option Nat) : Decidable (state.opens nfd) := by
  unfold opens
  infer_instance

/-- A step of the program. -/
def run (action : FileAction) : LogFiles :=
  let next := { state with file := state.file.act setup.options action }
  match action, state.file.thread with
  | .writev iov, _ => next.give 0 iov.flatten
  | .openChunk nfd, _ =>
      if state.opens nfd then
        { next with number := state.number + 1, tried := max state.tried (state.number + 1) }
      else state
  | .swap, .headed _ _ =>
      { next with chunks :=
          ⟨state.number, (setup.header state.file.nameIndex).flatten⟩ :: state.chunks }
  | .writeFooter, .linked _ =>
      next.give 1 (OutputFile.footerBytes setup.options state.file.nameIndex)
  | _, _ => next

/-- A chunk that no link names yet is forgotten. -/
def restart (fd : Nat) : LogFiles :=
  match initName setup.rounds setup.maxCount (setup.links state.file.link) setup.filename with
  | none => state
  | some naming =>
      let number := ((state.linked.map Numbered.number).headD 0) + 1
      { file :=
          { OutputFile.create state.file.files fd naming.nameIndex with link := state.file.link }
        starting := true
        number
        tried := max state.tried number
        chunks := ⟨number, []⟩ :: state.linked }

def act : LogAction → LogFiles
  | .file action => state.run setup action
  | .restart fd => state.restart setup fd
  | .linkFirst =>
      if state.starting then
        { state with
          file := { state.file with link := state.file.nameIndex }
          starting := false }
      else state

/-- The first program is constructed. -/
def create (files : Nat → List UInt8) (fd start : Nat) : LogFiles where
  file := .create files fd start
  starting := false
  number := start
  tried := start
  chunks := [⟨start, []⟩]

def after (start : LogFiles) (actions : List LogAction) : LogFiles := runs (act setup) start actions

/-- The rotation is about to open the chunk that is being written. -/
def comesRound : LogAction → Bool
  | .file (.openChunk nfd) =>
      decide (state.opens nfd) && state.file.nextIndex setup.options == state.file.current
  | _ => false

end LogFiles

/-! ## The index after a restart -/

namespace LogSetup

variable {setup : LogSetup}

/-- A restart goes on behind the chunk that the link names. -/
theorem Readable.resumes (readable : setup.Readable) {link : Nat} (counted : link < setup.size) :
    ∃ naming, initName setup.rounds setup.maxCount (setup.links link) setup.filename = some naming ∧
      naming.nameIndex = nextIndex setup.maxCount link := by
  obtain ⟨short, apart⟩ := readable
  have positive : 0 < setup.indexWidth := widthLoop_le setup.wide
  have fits : link < 10 ^ setup.indexWidth :=
    Nat.lt_of_lt_of_le counted (widthLoop_covers setup.wide rfl)
  have points : setup.links link setup.names.symlink =
      some (setup.names.updateName setup.indexWidth link) := if_pos rfl
  have room : (setup.names.updateName setup.indexWidth link).length ≤
      setup.names.linkLen setup.indexWidth := by
    have longer := (split_length (cstr setup.filename)).2
    rw [updateName_length setup.names positive fits, FileName.linkLen, Nat.mod_eq_of_lt short]
    change setup.names.namePref.length + setup.names.nameSufx.length ≤
      setup.names.symlink.length + 1 at longer
    omega
  obtain ⟨place, inside, cut, last⟩ :=
    stripSuffix_place setup.names.nameSufx (lastDigits setup.indexWidth link)
  rw [lastDigits_length] at inside last
  have whole : place = setup.indexWidth := by
    refine last.mpr (apart.imp_right fun nowhere => ?_)
    rw [← padded_eq_lastDigits positive fits]
    exact nowhere link counted
  have index := readLink_eq positive fits counted points room inside cut
  rw [whole, Nat.sub_self, Nat.pow_zero, Nat.div_one] at index
  have ends : initName setup.rounds setup.maxCount (setup.links link) setup.filename = some
      { names := setup.names
        indexWidth := setup.indexWidth
        nameIndex := setup.names.readLink setup.maxCount (setup.links link) setup.indexWidth
        name := setup.names.updateName setup.indexWidth
          (setup.names.readLink setup.maxCount (setup.links link) setup.indexWidth) } := by
    rw [initName, setup.wide]
    rfl
  exact ⟨_, ends, index⟩

theorem nextIndex_number {setup : LogSetup} (positive : 0 < setup.size) {index number : Nat}
    (named : index = number % setup.size) :
    nextIndex setup.maxCount index = (number + 1) % setup.size := by
  have inside := Nat.mod_lt number positive
  have single : max setup.maxCount.toNat 1 = setup.size := Nat.max_eq_left positive
  rw [NamedFile.nextIndex_eq_mod (by rw [single, named]; exact inside), single, named,
    Nat.mod_add_mod]

end LogSetup

/-! ## What every step keeps -/

namespace LogFiles

variable {setup : LogSetup} {state : LogFiles} {newest : Numbered (List UInt8)}
  {older : List (Numbered (List UInt8))}

/-- What `do_rotate` knows of its descriptors and of the chunk it opens or
leaves. -/
def Stage (setup : LogSetup) (state : LogFiles) (newest : Numbered (List UInt8))
    (older : List (Numbered (List UInt8))) : RotatePc → Prop
  | .idle => True
  | .opened ofd nfd => ofd = state.file.fd ∧ nfd ≠ state.file.fd ∧
      state.file.fds nfd = some state.file.nameIndex ∧ newest.number < state.number ∧
      state.file.files state.file.nameIndex = []
  | .headed ofd nfd => ofd = state.file.fd ∧ nfd ≠ state.file.fd ∧
      state.file.fds nfd = some state.file.nameIndex ∧ newest.number < state.number ∧
      state.file.files state.file.nameIndex = (setup.header state.file.nameIndex).flatten
  | .swapped ofd | .linked ofd => ofd ≠ state.file.fd ∧ state.number = newest.number ∧
      ∃ left rest, older = left :: rest ∧ state.file.fds ofd = some (left.number % setup.size) ∧
        state.tried < left.number + setup.size
  | .footed ofd => ofd ≠ state.file.fd

/-- The link names the newest chunk, or the one behind it. -/
def Links (setup : LogSetup) (state : LogFiles) (newest : Numbered (List UInt8))
    (older : List (Numbered (List UInt8))) : Prop :=
  if state.unlinked then ∃ left rest, older = left :: rest ∧
    state.file.link = left.number % setup.size ∧ state.tried < left.number + setup.size
  else state.file.link = newest.number % setup.size ∧ state.tried < newest.number + setup.size

structure Standing (setup : LogSetup) (state : LogFiles) (newest : Numbered (List UInt8))
    (older : List (Numbered (List UInt8))) : Prop where
  chunks : state.chunks = newest :: older
  wheel : Wheel setup.size state.tried state.file.files (newest :: older)
  named : state.file.nameIndex = state.number % setup.size
  ahead : newest.number ≤ state.number
  near : state.number < newest.number + setup.size
  known : state.number ≤ state.tried
  writer : state.file.fds state.file.fd = some (newest.number % setup.size)
  current : state.file.current = newest.number % setup.size
  links : state.Links setup newest older
  starting : state.starting = true → state.file.thread = .idle ∧ state.number = newest.number
  stage : state.Stage setup newest older state.file.thread

/-- What was in a chunk is at the front of it. -/
def Grows (before after : List (Numbered (List UInt8))) : Prop :=
  ∀ chunk ∈ before, ∃ more, ⟨chunk.number, chunk.value ++ more⟩ ∈ after

theorem Grows.of_subset {before after : List (Numbered (List UInt8))} (subset : before ⊆ after) :
    Grows before after :=
  fun chunk member => ⟨[], by rw [List.append_nil]; exact subset member⟩

theorem Grows.trans {first second third : List (Numbered (List UInt8))}
    (left : Grows first second) (right : Grows second third) : Grows first third := by
  intro chunk member
  obtain ⟨more, middle⟩ := left chunk member
  obtain ⟨most, last⟩ := right _ middle
  exact ⟨more ++ most, by rwa [← List.append_assoc]⟩

theorem Grows.of_head (chunk : Numbered (List UInt8)) (more : List UInt8)
    (chunks : List (Numbered (List UInt8))) :
    Grows (chunk :: chunks) ({ chunk with value := chunk.value ++ more } :: chunks) := by
  intro other member
  rcases List.mem_cons.mp member with rfl | rest
  · exact ⟨more, List.mem_cons_self⟩
  · exact ⟨[], by rw [List.append_nil]; exact List.mem_cons_of_mem _ rest⟩

theorem Grows.cons {before after : List (Numbered (List UInt8))} (grows : Grows before after)
    (chunk : Numbered (List UInt8)) : Grows (chunk :: before) (chunk :: after) := by
  intro other member
  rcases List.mem_cons.mp member with rfl | rest
  · exact ⟨[], by rw [List.append_nil]; exact List.mem_cons_self⟩
  · obtain ⟨more, later⟩ := grows other rest
    exact ⟨more, List.mem_cons_of_mem _ later⟩

namespace Standing

theorem linked_eq (standing : state.Standing setup newest older) :
    state.linked = if state.unlinked then older else newest :: older := by
  rw [linked, standing.chunks]
  rfl

/-- The chunk that is being written is there. -/
theorem recent (standing : state.Standing setup newest older) :
    state.tried < newest.number + setup.size := by
  have links := standing.links
  rw [Links] at links
  split at links
  · obtain ⟨left, rest, same, -, recent⟩ := links
    have below := standing.wheel.below left (same ▸ List.mem_cons_self)
    omega
  · exact links.2

theorem holds (standing : state.Standing setup newest older) :
    state.file.files (newest.number % setup.size) = newest.value :=
  standing.wheel.kept newest List.mem_cons_self standing.recent

theorem run_writev (standing : state.Standing setup newest older) (iov : List (List UInt8)) :
    state.run setup (.writev iov) = { state with
      file := { state.file with
        files := Function.update state.file.files (newest.number % setup.size)
          (newest.value ++ iov.flatten)
        size := state.file.size + iov.flatten.length
        rotatePending := state.file.rotatePending || iov.flatten != [] &&
          decide (setup.maxSize ≤ state.file.size + iov.flatten.length) &&
          state.file.thread == .idle
        written := state.file.written ++ iov }
      chunks := { newest with value := newest.value ++ iov.flatten } :: older } := by
  simp only [run, give, OutputFile.act, OutputFile.writev,
    OutputFile.append_eq standing.writer iov.flatten, standing.chunks, standing.holds,
    List.modify_zero_cons]
  rfl

theorem writev (standing : state.Standing setup newest older) (iov : List (List UInt8)) :
    (state.run setup (.writev iov)).Standing setup
      { newest with value := newest.value ++ iov.flatten } older := by
  rw [standing.run_writev]
  refine ⟨rfl, ?_, standing.named, standing.ahead, standing.near, standing.known, standing.writer,
    standing.current, standing.links, standing.starting, ?_⟩
  · exact @Wheel.change _ _ _ _ newest [] older standing.wheel (List.forall_mem_nil _) _
  · have stage := standing.stage
    have other (later : newest.number < state.number) (bytes : List UInt8) :
        Function.update state.file.files (newest.number % setup.size) bytes state.file.nameIndex =
          state.file.files state.file.nameIndex := by
      rw [standing.named]
      exact Function.update_of_ne (slot_ne later standing.near).symm _ _
    dsimp only
    cases place : state.file.thread with
    | idle => trivial
    | opened ofd nfd | headed ofd nfd =>
        rw [place] at stage
        obtain ⟨same, different, open', later, content⟩ := stage
        exact ⟨same, different, open', later, (other later _).trans content⟩
    | swapped ofd | linked ofd | footed ofd =>
        rw [place] at stage
        exact stage

/-- A rotation is under way, so the constructor is done. -/
theorem started (standing : state.Standing setup newest older) {stands : RotatePc}
    (place : state.file.thread = stands) (busy : stands ≠ .idle) : state.starting = false := by
  cases starts : state.starting with
  | false => rfl
  | true => exact absurd (place.symm.trans (standing.starting starts).1) busy

/-- The next index is that of the next number, and not that of the chunk that
is being written. -/
theorem nextIndex (standing : state.Standing setup newest older) :
    state.file.nextIndex setup.options = (state.number + 1) % setup.size := by
  have near := standing.near
  have ahead := standing.ahead
  exact LogSetup.nextIndex_number (by omega) standing.named

theorem forward (standing : state.Standing setup newest older) {nfd : Option Nat}
    (opens : state.opens nfd) (onward : state.comesRound setup (.file (.openChunk nfd)) = false) :
    state.number + 1 < newest.number + setup.size := by
  have near := standing.near
  by_contra round
  have same : state.number + 1 = newest.number + setup.size := by omega
  rw [comesRound, decide_eq_true opens, Bool.true_and, standing.nextIndex, standing.current, same,
    Nat.add_mod_right, beq_self_eq_true] at onward
  cases onward

theorem run_openChunk {nfd : Option Nat} (opens : state.opens nfd) :
    state.run setup (.openChunk nfd) = { state with
      file := state.file.openChunk setup.options nfd
      number := state.number + 1
      tried := max state.tried (state.number + 1) } := by
  rw [run, if_pos opens, OutputFile.act, if_pos opens.2]

theorem openChunk (standing : state.Standing setup newest older) {nfd : Option Nat}
    (opens : state.opens nfd) (onward : state.comesRound setup (.file (.openChunk nfd)) = false) :
    (state.run setup (.openChunk nfd)).Standing setup newest older := by
  have forward := standing.forward opens onward
  have index := standing.nextIndex
  have ahead := standing.ahead
  have recent := standing.recent
  rw [run_openChunk opens]
  obtain ⟨started, place, pending, unused⟩ := opens
  have unlinked : state.unlinked = false := by rw [unlinked, started, place]; rfl
  have links := standing.links
  rw [Links, unlinked] at links
  have wheel := standing.wheel.mono (Nat.le_max_left state.tried (state.number + 1))
  cases nfd with
  | none =>
      refine ⟨standing.chunks, wheel, index, Nat.le_succ_of_le ahead, forward,
        Nat.le_max_right _ _, standing.writer, standing.current, ?_, fun starts => ?_, trivial⟩
      · rw [Links, LogFiles.unlinked, started]
        exact ⟨links.1, by dsimp only; omega⟩
      · cases started.symm.trans starts
  | some nfd =>
      have closed := unused nfd rfl
      have different : nfd ≠ state.file.fd := by
        rintro rfl
        cases closed.symm.trans standing.writer
      have below : ∀ chunk ∈ newest :: older, chunk.number < state.number + 1 := by
        refine List.forall_mem_cons.mpr ⟨by omega, fun chunk member => ?_⟩
        have lower := standing.wheel.below chunk member
        omega
      refine ⟨standing.chunks, ?_, index, Nat.le_succ_of_le ahead, forward,
        Nat.le_max_right _ _, ?_, standing.current, ?_, fun starts => ?_, ?_⟩
      · simp only [OutputFile.openChunk, index]
        exact wheel.overwrite below (Nat.le_max_right _ _) []
      · exact (Function.update_of_ne different.symm _ _).trans standing.writer
      · rw [Links, LogFiles.unlinked, started]
        exact ⟨links.1, by dsimp only; omega⟩
      · cases started.symm.trans starts
      · exact ⟨rfl, different, Function.update_self _ _ _, by dsimp only; omega,
          Function.update_self _ _ _⟩

/-- The bytes that go into the chunk that is being opened are nobody's. -/
theorem overwrite (standing : state.Standing setup newest older)
    (later : newest.number < state.number) (bytes : List UInt8) :
    Wheel setup.size state.tried
      (Function.update state.file.files state.file.nameIndex bytes) (newest :: older) := by
  rw [standing.named]
  refine standing.wheel.overwrite (List.forall_mem_cons.mpr ⟨later, fun chunk member => ?_⟩)
    standing.known bytes
  exact Nat.lt_trans (standing.wheel.below chunk member) later

theorem writeHeader (standing : state.Standing setup newest older) {ofd nfd : Nat}
    (place : state.file.thread = .opened ofd nfd) (failing : Option Nat) :
    (state.run setup (.writeHeader failing)).Standing setup newest older := by
  have stage := standing.stage
  rw [place] at stage
  obtain ⟨same, different, open', later, empty⟩ := stage
  have started := standing.started place (by rintro ⟨⟩)
  have links := standing.links
  rw [Links, unlinked, started, place] at links
  have sent : state.run setup (.writeHeader failing) = { state with
      file := state.file.writeHeader setup.options ofd nfd failing } := by
    simp only [run, OutputFile.act, place]
  rw [sent, OutputFile.writeHeader, OutputFile.append_eq open']
  split
  · refine ⟨standing.chunks, standing.overwrite later _, standing.named, standing.ahead,
      standing.near, standing.known, ?_, standing.current, ?_, fun starts => ?_, trivial⟩
    · exact (Function.update_of_ne (by exact different.symm) _ _).trans standing.writer
    · rw [Links, LogFiles.unlinked, started]
      exact links
    · cases started.symm.trans starts
  · rename_i succeeded
    have header := send_accepted (eq_false_of_ne_true succeeded)
    refine ⟨standing.chunks, standing.overwrite later _, standing.named, standing.ahead,
      standing.near, standing.known, standing.writer, standing.current, ?_, fun starts => ?_, ?_⟩
    · rw [Links, LogFiles.unlinked, started]
      exact links
    · cases started.symm.trans starts
    · refine ⟨same, different, open', later, ?_⟩
      dsimp only
      rw [Function.update_self, empty, List.nil_append, header]
      rfl

theorem swap (standing : state.Standing setup newest older) {ofd nfd : Nat}
    (place : state.file.thread = .headed ofd nfd) :
    (state.run setup .swap).Standing setup
      ⟨state.number, (setup.header state.file.nameIndex).flatten⟩ (newest :: older) := by
  have stage := standing.stage
  rw [place] at stage
  obtain ⟨rfl, different, open', later, content⟩ := stage
  have started := standing.started place (by rintro ⟨⟩)
  have links := standing.links
  rw [Links, unlinked, started, place] at links
  have near := standing.near
  have swapped : state.run setup .swap = { state with
      file := state.file.swap state.file.fd nfd
      chunks :=
        ⟨state.number, (setup.header state.file.nameIndex).flatten⟩ :: newest :: older } := by
    simp only [run, OutputFile.act, place, standing.chunks]
  rw [swapped]
  refine ⟨rfl, ?_, standing.named, Nat.le_refl _, by dsimp only; omega, standing.known,
    ?_, standing.named, ?_, fun starts => ?_, ?_⟩
  · refine standing.wheel.push ?_ standing.known ?_
    · refine List.forall_mem_cons.mpr ⟨later, fun chunk member => ?_⟩
      exact Nat.lt_trans (standing.wheel.below chunk member) later
    · rw [← standing.named]
      exact content
  · exact open'.trans (congrArg some standing.named)
  · rw [Links, LogFiles.unlinked, started]
    exact ⟨newest, older, rfl, links⟩
  · cases started.symm.trans starts
  · exact ⟨different.symm, rfl, newest, older, rfl, standing.writer, links.2⟩

theorem updateLink (standing : state.Standing setup newest older) {ofd : Nat}
    (place : state.file.thread = .swapped ofd) :
    (state.run setup .updateLink).Standing setup newest older := by
  have started := standing.started place (by rintro ⟨⟩)
  have stage := standing.stage
  rw [place] at stage
  have set : state.run setup .updateLink = { state with
      file := { state.file with link := state.file.nameIndex, thread := .linked ofd } } := by
    simp only [run, OutputFile.act, place]
  rw [set]
  refine ⟨standing.chunks, standing.wheel, standing.named, standing.ahead, standing.near,
    standing.known, standing.writer, standing.current, ?_, fun starts => ?_, stage⟩
  · rw [Links, LogFiles.unlinked, started]
    exact ⟨standing.named.trans (congrArg (· % setup.size) stage.2.1), standing.recent⟩
  · cases started.symm.trans starts

theorem writeFooter (standing : state.Standing setup newest older) {ofd : Nat}
    (place : state.file.thread = .linked ofd) : ∃ left rest more, older = left :: rest ∧
      (state.run setup .writeFooter).Standing setup newest
        ({ left with value := left.value ++ more } :: rest) := by
  have started := standing.started place (by rintro ⟨⟩)
  have links := standing.links
  rw [Links, unlinked, started, place] at links
  have stage := standing.stage
  rw [place] at stage
  obtain ⟨different, -, left, rest, rfl, open', recent⟩ := stage
  refine ⟨left, rest, OutputFile.footerBytes setup.options state.file.nameIndex, rfl, ?_⟩
  generalize added : OutputFile.footerBytes setup.options state.file.nameIndex = more
  have left_holds := standing.wheel.kept left (List.mem_cons_of_mem _ List.mem_cons_self) recent
  have known := standing.wheel.known newest List.mem_cons_self
  have footed : state.run setup .writeFooter = { state with
      file := { state.file with
        files := Function.update state.file.files (left.number % setup.size) (left.value ++ more)
        thread := .footed ofd }
      chunks := newest :: { left with value := left.value ++ more } :: rest } := by
    simp only [run, give, OutputFile.act, place, OutputFile.append_eq open', standing.chunks,
      left_holds, added, List.modify_succ_cons, List.modify_zero_cons]
  rw [footed]
  refine ⟨rfl, ?_, standing.named, standing.ahead, standing.near, standing.known, standing.writer,
    standing.current, ?_, fun starts => ?_, different⟩
  · exact @Wheel.change _ _ _ _ left [newest] rest standing.wheel
      (List.forall_mem_singleton.mpr (by omega)) _
  · rw [Links, LogFiles.unlinked, started]
    exact links
  · cases started.symm.trans starts

theorem close (standing : state.Standing setup newest older) {ofd : Nat}
    (place : state.file.thread = .footed ofd) :
    (state.run setup .close).Standing setup newest older := by
  have started := standing.started place (by rintro ⟨⟩)
  have links := standing.links
  rw [Links, unlinked, started, place] at links
  have different := standing.stage
  rw [place] at different
  have closed : state.run setup .close = { state with file := (state.file.closeFd ofd).leave } := by
    simp only [run, OutputFile.act, place]
  rw [closed]
  refine ⟨standing.chunks, standing.wheel, standing.named, standing.ahead, standing.near,
    standing.known, ?_, standing.current, ?_, fun starts => ?_, trivial⟩
  · exact (Function.update_of_ne (Ne.symm different) _ _).trans standing.writer
  · rw [Links, LogFiles.unlinked, started]
    exact links
  · cases started.symm.trans starts

/-- The chunk that the link names is the newest of those that count. -/
theorem linked (standing : state.Standing setup newest older) : ∃ chunk rest,
    state.linked = chunk :: rest ∧ Wheel setup.size state.tried state.file.files (chunk :: rest) ∧
      state.file.link = chunk.number % setup.size ∧ state.tried < chunk.number + setup.size := by
  have links := standing.links
  rw [Links] at links
  rw [LogFiles.linked, standing.chunks]
  split at links
  · rename_i unlinked
    obtain ⟨left, rest, rfl, named, recent⟩ := links
    rw [if_pos unlinked]
    exact ⟨left, rest, rfl, standing.wheel.tail, named, recent⟩
  · rename_i linked
    rw [if_neg linked]
    exact ⟨newest, older, rfl, standing.wheel, links⟩

theorem restart (standing : state.Standing setup newest older) (readable : setup.Readable)
    (several : 2 ≤ setup.size) (fd : Nat) : ∃ next,
      (state.restart setup fd).Standing setup next state.linked ∧
        (state.restart setup fd).unlinked = true ∧
        (state.restart setup fd).tried ≤ state.tried + 1 := by
  obtain ⟨chunk, rest, linked, wheel, named, recent⟩ := standing.linked
  have counted : state.file.link < setup.size := named ▸ Nat.mod_lt _ (by omega)
  obtain ⟨naming, built, index⟩ := readable.resumes counted
  rw [LogSetup.nextIndex_number (by omega) named] at index
  have known := wheel.known chunk List.mem_cons_self
  have further := wheel.mono (Nat.le_max_left state.tried (chunk.number + 1))
  have above : ∀ other ∈ chunk :: rest, other.number < chunk.number + 1 := by
    refine List.forall_mem_cons.mpr ⟨Nat.lt_succ_self _, fun other member => ?_⟩
    exact Nat.lt_succ_of_lt (wheel.below other member)
  have opened := further.overwrite above (Nat.le_max_right _ _) []
  have restarted : state.restart setup fd =
      { file := { OutputFile.create state.file.files fd naming.nameIndex with
          link := state.file.link }
        starting := true
        number := chunk.number + 1
        tried := max state.tried (chunk.number + 1)
        chunks := ⟨chunk.number + 1, []⟩ :: state.linked } := by
    simp only [LogFiles.restart, built, linked, List.map_cons, List.headD_cons]
  refine ⟨⟨chunk.number + 1, []⟩, ?_⟩
  rw [restarted, linked]
  refine ⟨?_, rfl, Nat.max_le.mpr ⟨Nat.le_succ _, Nat.succ_le_succ known⟩⟩
  refine ⟨rfl, ?_, index, Nat.le_refl _, by dsimp only; omega, Nat.le_max_right _ _, ?_, index, ?_,
    fun _ => ⟨rfl, rfl⟩, trivial⟩
  · simp only [OutputFile.create, index]
    exact opened.push above (Nat.le_max_right _ _) (Function.update_self _ _ _)
  · exact (Function.update_self fd (some naming.nameIndex) fun _ => none).trans
      (congrArg some index)
  · exact ⟨chunk, rest, rfl, named, by dsimp only; omega⟩

theorem linkFirst (standing : state.Standing setup newest older) :
    (state.act setup .linkFirst).Standing setup newest older := by
  simp only [act]
  split
  · rename_i starting
    obtain ⟨idle, same⟩ := standing.starting starting
    refine ⟨standing.chunks, standing.wheel, standing.named, standing.ahead, standing.near,
      standing.known, standing.writer, standing.current, ?_, fun starts => ?_, standing.stage⟩
    · rw [Links, LogFiles.unlinked, idle]
      exact ⟨standing.named.trans (congrArg (· % setup.size) same), standing.recent⟩
    · cases starts
  · exact standing

end Standing

/-- What a step of one program or the change to the next makes of the chunks. -/
structure Next (setup : LogSetup) (before after : LogFiles) (tries : Nat) : Prop where
  standing : ∃ newest older, after.Standing setup newest older
  /-- What a link has named stays. -/
  grows : Grows before.linked after.linked
  tried : after.tried ≤ before.tried + tries

/-- The chunks are as they were, and none of them loses its link. -/
theorem Next.of_same {before after : LogFiles} {tries : Nat}
    (standing : before.Standing setup newest older) (next : after.Standing setup newest older)
    (unlinked : after.unlinked = true → before.unlinked = true)
    (tried : after.tried ≤ before.tried + tries) : Next setup before after tries := by
  refine ⟨⟨newest, older, next⟩, ?_, tried⟩
  rw [standing.linked_eq, next.linked_eq]
  by_cases later : after.unlinked = true
  · rw [if_pos later, if_pos (unlinked later)]
    exact .of_subset (List.Subset.refl _)
  · rw [if_neg later]
    split
    · exact .of_subset (List.subset_cons_self _ _)
    · exact .of_subset (List.Subset.refl _)

namespace Standing

theorem run_tried {action : FileAction} (quiet : (LogAction.file action).tries = false) :
    (state.run setup action).tried = state.tried := by
  cases action with
  | openChunk nfd => cases quiet
  | writev iov => rfl
  | writeHeader failing | updateLink | close => rfl
  | swap | writeFooter =>
      cases place : state.file.thread <;> simp only [run, place, give]

theorem linked_of_busy (standing : state.Standing setup newest older) {stands : RotatePc}
    (place : state.file.thread = stands) (busy : stands ≠ .idle)
    (other : ∀ ofd, stands ≠ .swapped ofd) : state.linked = newest :: older := by
  rw [standing.linked_eq, unlinked, standing.started place busy, place]
  cases stands with
  | swapped ofd => exact absurd rfl (other ofd)
  | _ => rfl

theorem next_run (standing : state.Standing setup newest older) (action : FileAction)
    (onward : state.comesRound setup (.file action) = false) :
    Next setup state (state.run setup action) (if (LogAction.file action).tries then 1 else 0) := by
  have kept (same : state.run setup action = state) :
      Next setup state (state.run setup action)
        (if (LogAction.file action).tries then 1 else 0) := by
    rw [same]
    exact .of_same standing standing id (Nat.le_add_right _ _)
  cases action with
  | writev iov =>
      have next := standing.writev iov
      have unlinked : (state.run setup (.writev iov)).unlinked = state.unlinked := by
        rw [standing.run_writev]
        rfl
      refine ⟨⟨_, _, next⟩, ?_, ?_⟩
      · rw [standing.linked_eq, next.linked_eq, unlinked]
        split
        · exact .of_subset (List.Subset.refl _)
        · exact .of_head newest iov.flatten older
      · rw [standing.run_writev]
        exact Nat.le_add_right _ _
  | openChunk nfd =>
      by_cases opens : state.opens nfd
      · have known := standing.known
        refine .of_same standing (standing.openChunk opens onward) (fun later => ?_) ?_
        · rw [run_openChunk opens] at later
          cases nfd <;> simp [unlinked, opens.1, OutputFile.openChunk, OutputFile.leave] at later
        · rw [run_openChunk opens]
          exact Nat.max_le.mpr ⟨Nat.le_succ _, Nat.succ_le_succ known⟩
      · exact kept (by rw [run, if_neg opens])
  | writeHeader failing =>
      cases place : state.file.thread with
      | opened ofd nfd =>
          have started := standing.started place (by rintro ⟨⟩)
          refine .of_same standing (standing.writeHeader place failing) (fun later => ?_)
            (Nat.le_of_eq (run_tried rfl))
          simp only [run, OutputFile.act, place, unlinked, started, Bool.false_or,
            OutputFile.writeHeader] at later
          split at later
          · rename_i swapped
            split at swapped <;> cases swapped
          · cases later
      | _ => exact kept (by simp only [run, OutputFile.act, place])
  | swap =>
      cases place : state.file.thread with
      | headed ofd nfd =>
          have next := standing.swap place
          have unlinked : (state.run setup .swap).unlinked = true := by
            simp only [run, OutputFile.act, place, LogFiles.unlinked, OutputFile.swap, Bool.or_true]
          refine ⟨⟨_, _, next⟩, ?_, Nat.le_of_eq (run_tried rfl)⟩
          rw [standing.linked_of_busy place (by rintro ⟨⟩) (by rintro _ ⟨⟩), next.linked_eq,
            if_pos unlinked]
          exact .of_subset (List.Subset.refl _)
      | _ => exact kept (by simp only [run, OutputFile.act, place])
  | updateLink =>
      cases place : state.file.thread with
      | swapped ofd =>
          refine .of_same standing (standing.updateLink place) (fun _ => ?_)
            (Nat.le_of_eq (run_tried rfl))
          simp only [unlinked, place, Bool.or_true]
      | _ => exact kept (by simp only [run, OutputFile.act, place])
  | writeFooter =>
      cases place : state.file.thread with
      | linked ofd =>
          obtain ⟨left, rest, more, rfl, next⟩ := standing.writeFooter place
          have after : (state.run setup .writeFooter).file.thread = .footed ofd := by
            simp only [run, OutputFile.act, place, give]
          refine ⟨⟨_, _, next⟩, ?_, Nat.le_of_eq (run_tried rfl)⟩
          rw [standing.linked_of_busy place (by rintro ⟨⟩) (by rintro _ ⟨⟩),
            next.linked_of_busy after (by rintro ⟨⟩) (by rintro _ ⟨⟩)]
          exact Grows.cons (.of_head left more rest) newest
      | _ => exact kept (by simp only [run, OutputFile.act, place])
  | close =>
      cases place : state.file.thread with
      | footed ofd =>
          have started := standing.started place (by rintro ⟨⟩)
          refine .of_same standing (standing.close place) (fun later => ?_)
            (Nat.le_of_eq (run_tried rfl))
          simp only [run, OutputFile.act, place, unlinked, started, OutputFile.leave,
            Bool.or_false, Bool.false_eq_true] at later
      | _ => exact kept (by simp only [run, OutputFile.act, place])

theorem step (standing : state.Standing setup newest older) (readable : setup.Readable)
    (several : 2 ≤ setup.size) (action : LogAction)
    (onward : state.comesRound setup action = false) :
    Next setup state (state.act setup action) (if action.tries then 1 else 0) := by
  cases action with
  | file action => exact standing.next_run action onward
  | restart fd =>
      obtain ⟨next, restarted, unlinked, tried⟩ := standing.restart readable several fd
      refine ⟨⟨_, _, restarted⟩, ?_, tried⟩
      change Grows state.linked (state.restart setup fd).linked
      rw [restarted.linked_eq, if_pos unlinked]
      exact .of_subset (List.Subset.refl _)
  | linkFirst =>
      refine .of_same standing standing.linkFirst (fun later => ?_) ?_
      · rw [act] at later
        split at later
        · rename_i starting
          rw [unlinked, starting, Bool.true_or]
        · exact later
      · rw [act]
        split <;> exact Nat.le_refl _

theorem create (setup : LogSetup) (files : Nat → List UInt8) (fd : Nat) {start : Nat}
    (inRange : start < setup.size) :
    (LogFiles.create files fd start).Standing setup ⟨start, []⟩ [] := by
  have index : start = start % setup.size := (Nat.mod_eq_of_lt inRange).symm
  refine ⟨rfl, ?_, index, Nat.le_refl _, by dsimp only [LogFiles.create]; omega, Nat.le_refl _, ?_,
    index, ⟨index, by dsimp only [LogFiles.create]; omega⟩, (by rintro ⟨⟩), trivial⟩
  · refine ⟨List.pairwise_singleton _ _, List.forall_mem_singleton.mpr (Nat.le_refl _),
      List.forall_mem_singleton.mpr fun _ => ?_⟩
    dsimp only
    rw [← index]
    exact Function.update_self _ _ _
  · exact (Function.update_self fd (some start) fun _ => none).trans (congrArg some index)

end Standing

theorem after_append (state : LogFiles) (earlier later : List LogAction) :
    state.after setup (earlier ++ later) = (state.after setup earlier).after setup later :=
  List.foldl_append

/-- None of the actions comes round to the chunk that is being written. -/
def Onward (setup : LogSetup) (state : LogFiles) (actions : List LogAction) : Prop :=
  AtEach (fun earlier action => ¬ (state.after setup earlier).comesRound setup action) actions

instance (state : LogFiles) (actions : List LogAction) :
    Decidable (state.Onward setup actions) :=
  inferInstanceAs (Decidable (AtEach _ actions))

/-- What a run makes of the chunks. -/
theorem Standing.after (standing : state.Standing setup newest older) (readable : setup.Readable)
    (several : 2 ≤ setup.size) (actions : List LogAction) (onward : state.Onward setup actions) :
    Next setup state (state.after setup actions) (actions.countP LogAction.tries) := by
  induction actions using List.reverseRecOn with
  | nil => exact .of_same standing standing id (Nat.le_refl _)
  | append_singleton actions last ih =>
      obtain ⟨⟨newest, older, before⟩, grown, tried⟩ := ih onward.of_append
      have next := before.step readable several last
        (Bool.eq_false_of_not_eq_true (onward actions last [] rfl))
      have whole : state.after setup (actions ++ [last]) =
          (state.after setup actions).act setup last := runs_concat _ _ _ _
      rw [whole, List.countP_append, List.countP_singleton]
      refine ⟨next.standing, grown.trans next.grows, ?_⟩
      have one := next.tried
      omega

/-- Whatever dies and wherever it does, the chunks stay until the attempts to
open a chunk, by a rotation or by another program, have got a whole turn beyond
them: each file holds exactly what was written into its chunk.  The link always
names such a chunk, and what it has named is forgotten by no restart. -/
theorem linked_chunks_survive (setup : LogSetup) (readable : setup.Readable)
    (several : 2 ≤ setup.size) (files : Nat → List UInt8) (fd start : Nat)
    (inRange : start < setup.size) (earlier later : List LogAction)
    (onward : (create files fd start).Onward setup (earlier ++ later)) :
    let before := (create files fd start).after setup earlier
    let state := (create files fd start).after setup (earlier ++ later)
    (∀ chunk ∈ state.chunks, state.tried < chunk.number + setup.size →
      state.file.files (chunk.number % setup.size) = chunk.value) ∧
    (∃ newest older, state.chunks = newest :: older ∧
      state.file.fds state.file.fd = some (newest.number % setup.size)) ∧
    (∃ chunk rest, state.linked = chunk :: rest ∧
      state.file.link = chunk.number % setup.size ∧ state.tried < chunk.number + setup.size) ∧
    (∀ chunk ∈ before.linked, ∃ more, ⟨chunk.number, chunk.value ++ more⟩ ∈ state.linked) ∧
    state.tried ≤ before.tried + later.countP LogAction.tries := by
  intro before state
  obtain ⟨⟨newest, older, middle⟩, -, -⟩ := (Standing.create setup files fd inRange).after readable
    several earlier onward.of_append
  have continued : before.Onward setup later := by
    intro between action rest split
    have last := onward (earlier ++ between) action rest
      (by rw [split, List.append_assoc])
    dsimp only at last
    rwa [after_append] at last
  have same : state = before.after setup later := after_append _ _ _
  obtain ⟨⟨newest, older, standing⟩, grown, tried⟩ :=
    middle.after readable several later continued
  rw [← same] at standing grown tried
  obtain ⟨chunk, rest, linked, -, named, recent⟩ := standing.linked
  refine ⟨fun chunk member => standing.wheel.kept chunk (standing.chunks ▸ member),
    ⟨newest, older, standing.chunks, standing.writer⟩, ⟨chunk, rest, linked, named, recent⟩, grown,
    tried⟩

/-- Three chunks of a log; the second program dies between the swap and the
link, and the third takes its chunk again. -/
def crashSetup : LogSetup where
  filename := ascii "app.#.log"
  maxSize := 1
  maxCount := 3
  header _ := [[72]]
  footer _ := [[70]]
  rounds := 1
  indexWidth := 1
  wide := rfl

def crashRun : List LogAction :=
  [.file (.writev [[1]]), .restart 4, .linkFirst, .file (.writev [[2]]),
    .file (.openChunk (some 5)), .file (.writeHeader none), .file .swap, .file (.writev [[3]]),
    .restart 4]

theorem linked_chunks_survive_crash :
    let state := (create (fun _ => []) 3 0).after crashSetup crashRun
    state.linked = [⟨1, [2]⟩, ⟨0, [1]⟩] ∧ state.file.files 1 = [2] ∧ state.file.files 2 = [] ∧
      ∃ chunk rest, state.linked = chunk :: rest ∧ state.file.link = chunk.number % 3 ∧
        state.tried < chunk.number + 3 := by
  intro state
  have survive := linked_chunks_survive crashSetup ⟨by decide, .inr (by decide)⟩ (by decide)
    (fun _ => []) 3 0 (by decide) [] crashRun (by decide +kernel)
  exact ⟨by decide +kernel, by decide +kernel, by decide +kernel, survive.2.2.1⟩

end LogFiles

end Hogl.Output
