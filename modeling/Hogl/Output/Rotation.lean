import Hogl.Output.Chunks
import Hogl.Output.Names

namespace Hogl.Output

open Hogl.Data

/-! # The name of the current chunk

`do_rotate` and `switch_name` of `src/output-file.cc` with the naming state in
full.  `header` is what `format::header` pushes into a chunk of some name that
is not the first one. -/

structure NamedFile where
  maxCount : UInt32
  naming : FileNames
  fd : Nat
  size : Nat

/-- What `open` returns, and the write of the header that fails, if any. -/
structure Attempt where
  nfd : Option Nat
  failing : Option Nat
deriving Repr, DecidableEq

namespace NamedFile

variable (header : List UInt8 → List (List UInt8)) (state : NamedFile)

/-- The constructor, with a chunk that is opened as `fd`. -/
def create (rounds : Nat) (maxCount : UInt32) (links : List UInt8 → Option (List UInt8))
    (filename : List UInt8) (fd : Nat) : Option NamedFile :=
  (initName rounds maxCount links filename).map fun naming => { maxCount, naming, fd, size := 0 }

/-- The index and the name are set before anything is opened. -/
def advance : NamedFile :=
  let nameIndex := nextIndex state.maxCount state.naming.nameIndex
  { state with naming := { state.naming with
      nameIndex
      name := state.naming.names.updateName state.naming.indexWidth nameIndex } }

/-- `nsb.failed()`. -/
def headerFails (failing : Option Nat) : Bool :=
  (send (header state.naming.name) failing).failed

def doRotate (attempt : Attempt) : NamedFile :=
  let named := state.advance
  match attempt.nfd with
  | none => named
  | some nfd =>
      if named.headerFails header attempt.failing then named else { named with fd := nfd, size := 0 }

/-- The part of `switch_name` before it triggers the rotation. -/
def switchName (rounds : Nat) (links : List UInt8 → Option (List UInt8)) (filename : List UInt8) :
    Option NamedFile :=
  (initName rounds state.maxCount links filename).map fun naming => { state with naming }

/-- The new chunk is not opened or does not get its header. -/
def Fails (attempt : Attempt) : Prop :=
  attempt.nfd = none ∨ state.advance.headerFails header attempt.failing = true

def after (attempts : List Attempt) : NamedFile := runs (doRotate header) state attempts

/-- The states of an output file: built, written to, rotated, with or without
success, and switched to other names. -/
inductive Reached : NamedFile → Prop where
  | created {rounds : Nat} {maxCount : UInt32} {links : List UInt8 → Option (List UInt8)}
      {filename : List UInt8} {fd : Nat} {state : NamedFile}
      (made : create rounds maxCount links filename fd = some state) : Reached state
  | written {state : NamedFile} (reached : Reached state) (count : Nat) :
      Reached { state with size := state.size + count }
  | rotated {state : NamedFile} (reached : Reached state) (attempt : Attempt) :
      Reached (state.doRotate header attempt)
  | switched {state next : NamedFile} {rounds : Nat} {links : List UInt8 → Option (List UInt8)}
      {filename : List UInt8} (reached : Reached state)
      (switched : state.switchName rounds links filename = some next) : Reached next

/-- How many chunks there are. -/
def count : Nat := max state.maxCount.toNat 1

/-- The index is one of a chunk, and the name is made from it. -/
structure Named (state : NamedFile) : Prop where
  index : state.naming.nameIndex < state.count
  name : state.naming.name =
    state.naming.names.updateName state.naming.indexWidth state.naming.nameIndex

variable {header : List UInt8 → List (List UInt8)} {state : NamedFile}

theorem readLink_lt (names : FileName) (maxCount : UInt32)
    (links : List UInt8 → Option (List UInt8)) (indexWidth : Nat) :
    names.readLink maxCount links indexWidth < max maxCount.toNat 1 := by
  have positive : 0 < max maxCount.toNat 1 := by omega
  rw [FileName.readLink]
  split
  · exact positive
  · split
    · exact positive
    · split
      · exact positive
      · dsimp only
        split
        · exact positive
        · split
          · exact positive
          · split <;> omega

theorem initName_named {rounds : Nat} {maxCount : UInt32}
    {links : List UInt8 → Option (List UInt8)} {filename : List UInt8} {naming : FileNames}
    (made : initName rounds maxCount links filename = some naming) (fd size : Nat) :
    Named ⟨maxCount, naming, fd, size⟩ := by
  obtain ⟨indexWidth, -, same⟩ := Option.bind_eq_some_iff.mp made
  cases same
  exact ⟨readLink_lt _ _ _ _, rfl⟩

theorem nextIndex_eq_mod {maxCount : UInt32} {index : Nat} (inside : index < max maxCount.toNat 1) :
    nextIndex maxCount index = (index + 1) % max maxCount.toNat 1 := by
  rw [nextIndex]
  split
  · rename_i last
    have wrapped : index + 1 = max maxCount.toNat 1 := by omega
    rw [wrapped, Nat.mod_self]
  · rw [Nat.mod_eq_of_lt (by omega)]

theorem advance_named (named : Named state) : Named state.advance := by
  refine ⟨?_, rfl⟩
  change nextIndex state.maxCount state.naming.nameIndex < max state.maxCount.toNat 1
  rw [nextIndex_eq_mod named.index]
  exact Nat.mod_lt _ (by omega)

/-- Every attempt moves on to the next name; only the descriptor and the size
tell whether it succeeded. -/
theorem doRotate_cases (header : List UInt8 → List (List UInt8)) (state : NamedFile)
    (attempt : Attempt) :
    (state.Fails header attempt ∧ state.doRotate header attempt = state.advance) ∨
      ∃ nfd, attempt.nfd = some nfd ∧ ¬ state.Fails header attempt ∧
        state.doRotate header attempt = { state.advance with fd := nfd, size := 0 } := by
  cases opened : attempt.nfd with
  | none => exact .inl ⟨.inl opened, by rw [doRotate, opened]⟩
  | some nfd =>
      by_cases failed : state.advance.headerFails header attempt.failing = true
      · exact .inl ⟨.inr failed, by rw [doRotate, opened]; exact if_pos failed⟩
      · refine .inr ⟨nfd, rfl, ?_, by rw [doRotate, opened]; exact if_neg failed⟩
        intro either
        rcases either with unopened | same
        · cases opened.symm.trans unopened
        · exact failed same

theorem not_fails {nfd : Nat} {failing : Option Nat}
    (sent : state.advance.headerFails header failing = false) :
    ¬ state.Fails header ⟨some nfd, failing⟩ := by
  intro either
  rcases either with unopened | failed
  · cases unopened
  · cases failed.symm.trans sent

theorem doRotate_naming (header : List UInt8 → List (List UInt8)) (state : NamedFile)
    (attempt : Attempt) : (state.doRotate header attempt).naming = state.advance.naming ∧
      (state.doRotate header attempt).maxCount = state.maxCount := by
  rcases doRotate_cases header state attempt with ⟨-, same⟩ | ⟨nfd, -, -, same⟩
  · rw [same]
    exact ⟨rfl, rfl⟩
  · rw [same]
    exact ⟨rfl, rfl⟩

theorem Reached.named (reached : Reached header state) : Named state := by
  induction reached with
  | created made =>
      obtain ⟨naming, started, same⟩ := Option.map_eq_some_iff.mp made
      rw [← same]
      exact initName_named started _ _
  | written _ _ named => exact ⟨named.index, named.name⟩
  | @rotated state _ attempt named =>
      obtain ⟨naming, maxCount⟩ := doRotate_naming header state attempt
      have next := advance_named named
      refine ⟨?_, ?_⟩
      · rw [count, maxCount, naming]
        exact next.index
      · rw [naming]
        exact next.name
  | switched _ switched _ =>
      obtain ⟨naming, started, same⟩ := Option.map_eq_some_iff.mp switched
      rw [← same]
      exact initName_named started _ _

/-- The attempts fail, one after another. -/
def FailsAll (header : List UInt8 → List (List UInt8)) (state : NamedFile)
    (attempts : List Attempt) : Prop :=
  AtEach (fun earlier attempt => (state.after header earlier).Fails header attempt) attempts

/-- What failed attempts leave behind: the old descriptor and the name of a
later chunk. -/
structure Drifted (before after : NamedFile) (failed : Nat) : Prop where
  fd : after.fd = before.fd
  size : after.size = before.size
  maxCount : after.maxCount = before.maxCount
  names : after.naming.names = before.naming.names
  indexWidth : after.naming.indexWidth = before.naming.indexWidth
  index : after.naming.nameIndex = (before.naming.nameIndex + failed) % before.count
  named : Named after

theorem drifted {attempts : List Attempt} (named : Named state)
    (failing : FailsAll header state attempts) :
    Drifted state (state.after header attempts) attempts.length := by
  induction attempts using List.reverseRecOn with
  | nil => exact ⟨rfl, rfl, rfl, rfl, rfl, (Nat.mod_eq_of_lt named.index).symm, named⟩
  | append_singleton attempts last ih =>
      have before := ih failing.of_append
      have fails := failing attempts last [] rfl
      rw [after, runs_concat]
      rcases doRotate_cases header (state.after header attempts) last with
        ⟨-, same⟩ | ⟨nfd, -, works, -⟩
      · rw [after] at same
        rw [same]
        refine ⟨before.fd, before.size, before.maxCount, before.names, before.indexWidth, ?_,
          advance_named before.named⟩
        rw [List.length_append, List.length_singleton, ← Nat.add_assoc, ← Nat.mod_add_mod,
          ← before.index]
        exact (nextIndex_eq_mod before.named.index).trans (by rw [before.maxCount]; rfl)
      · exact absurd fails works

/-- Nothing that a caller or the next rotation sees has changed. -/
structure Unchanged (header : List UInt8 → List (List UInt8)) (before after : NamedFile) : Prop where
  fd : after.fd = before.fd
  size : after.size = before.size
  symlink : after.naming.names.symlink = before.naming.names.symlink
  name : after.naming.name = before.naming.name
  index : after.naming.nameIndex = before.naming.nameIndex
  next : ∀ attempt, ¬ after.Fails header attempt →
    (after.doRotate header attempt).naming.nameIndex =
      nextIndex before.maxCount before.naming.nameIndex

theorem add_mod_eq_self_iff {index failed count : Nat} (inside : index < count) :
    (index + failed) % count = index ↔ failed % count = 0 := by
  rw [← Nat.add_mod_mod]
  have less := Nat.mod_lt failed (show 0 < count by omega)
  generalize failed % count = rest at *
  rcases Nat.lt_or_ge (index + rest) count with low | wraps
  · rw [Nat.mod_eq_of_lt low]
    omega
  · rw [Nat.mod_eq_sub_mod wraps, Nat.mod_eq_of_lt (by omega)]
    omega

/-- Failed rotations change nothing exactly when their number is a multiple of
the number of chunks. -/
theorem failed_rotations_iff {attempts : List Attempt} (reached : Reached header state)
    (failing : FailsAll header state attempts) :
    Unchanged header state (state.after header attempts) ↔ attempts.length % state.count = 0 := by
  have named := reached.named
  have drift := drifted named failing
  constructor
  · intro same
    rw [← add_mod_eq_self_iff named.index, ← drift.index]
    exact same.index
  · intro multiple
    rw [← add_mod_eq_self_iff named.index, ← drift.index] at multiple
    refine ⟨drift.fd, drift.size, by rw [drift.names], ?_, multiple, ?_⟩
    · rw [drift.named.name, named.name, drift.names, drift.indexWidth, multiple]
    · intro attempt _
      rw [(doRotate_naming _ _ _).1, ← drift.maxCount, ← multiple]
      rfl

/-- An output of three chunks; its header is one byte. -/
def rotatedLog : Option NamedFile :=
  create 1 3 (fun _ => none) (ascii "log.#.txt") 4

/-- With three chunks a third failed rotation ends where the first began. -/
theorem failed_rotations_thrice : ∃ state, rotatedLog = some state ∧
    Unchanged (fun _ => [[0]]) state
      (state.after (fun _ => [[0]]) [⟨none, none⟩, ⟨some 5, some 1⟩, ⟨none, none⟩]) := by
  obtain ⟨state, made, second⟩ : ∃ state, rotatedLog = some state ∧
    (state.advance.advance.headerFails (fun _ => [[0]]) (some 1)) = true := ⟨_, rfl, by decide⟩
  have failing : FailsAll (fun _ => [[0]]) state [⟨none, none⟩, ⟨some 5, some 1⟩, ⟨none, none⟩] :=
    (((atEach_nil _).concat (.inl rfl)).concat (.inr second)).concat (.inl rfl)
  refine ⟨state, made, (failed_rotations_iff (.created made) failing).mpr ?_⟩
  cases made
  rfl

/-- One failed `open`, and the index is that of a chunk nobody writes. -/
theorem failed_rotation_moves_on : ∃ state, rotatedLog = some state ∧
    state.Fails (fun _ => [[0]]) ⟨none, none⟩ ∧
    (state.after (fun _ => [[0]]) [⟨none, none⟩]).naming.nameIndex ≠ state.naming.nameIndex ∧
    (state.after (fun _ => [[0]]) [⟨none, none⟩]).naming.name ≠ state.naming.name :=
  ⟨_, rfl, .inl rfl, by decide, by decide⟩

/-- The rotation behind `switch_name` uses the chunk that the constructor
would use exactly when there is only one. -/
theorem switch_name_iff {next : NamedFile} {rounds : Nat}
    {links : List UInt8 → Option (List UInt8)} {filename : List UInt8} {attempt : Attempt} {fd : Nat}
    (switched : state.switchName rounds links filename = some next)
    (works : ¬ next.Fails header attempt) :
    (∃ built, create rounds state.maxCount links filename fd = some built ∧
        (next.doRotate header attempt).naming.nameIndex = built.naming.nameIndex ∧
        (next.doRotate header attempt).naming.name = built.naming.name) ↔
      state.maxCount.toNat ≤ 1 := by
  obtain ⟨naming, started, rfl⟩ := Option.map_eq_some_iff.mp switched
  have named := initName_named started fd 0
  have built : create rounds state.maxCount links filename fd =
      some ⟨state.maxCount, naming, fd, 0⟩ := by rw [create, started]; rfl
  have inside : naming.nameIndex < max state.maxCount.toNat 1 := named.index
  have moved : nextIndex state.maxCount naming.nameIndex = naming.nameIndex ↔
      state.maxCount.toNat ≤ 1 := by
    rw [nextIndex_eq_mod inside, add_mod_eq_self_iff inside]
    rcases Nat.lt_or_ge 1 (max state.maxCount.toNat 1) with several | single
    · rw [Nat.mod_eq_of_lt several]
      omega
    · rw [show max state.maxCount.toNat 1 = 1 by omega]
      omega
  rcases doRotate_cases header { state with naming } attempt with ⟨fails, -⟩ | ⟨nfd, -, -, rotated⟩
  · exact absurd fails works
  · rw [built, rotated, ← moved]
    constructor
    · intro same
      obtain ⟨file, isFile, index, -⟩ := same
      cases isFile
      exact index
    · intro index
      refine ⟨_, rfl, index, ?_⟩
      rw [named.name]
      exact congrArg (naming.names.updateName naming.indexWidth) index

/-- With one chunk both use the index 0. -/
theorem switch_name_single : ∃ state next built,
    create 1 1 (fun _ => none) (ascii "log.#.txt") 4 = some state ∧
    state.switchName 1 (fun _ => none) (ascii "new.#.txt") = some next ∧
    create 1 1 (fun _ => none) (ascii "new.#.txt") 5 = some built ∧
    (next.doRotate (fun _ => [[0]]) ⟨some 6, none⟩).naming.nameIndex = built.naming.nameIndex ∧
    (next.doRotate (fun _ => [[0]]) ⟨some 6, none⟩).naming.name = built.naming.name := by
  obtain ⟨state, next, made, single, switched, sent⟩ : ∃ state next,
      create 1 1 (fun _ => none) (ascii "log.#.txt") 4 = some state ∧ state.maxCount = 1 ∧
      state.switchName 1 (fun _ => none) (ascii "new.#.txt") = some next ∧
      next.advance.headerFails (fun _ => [[0]]) none = false := ⟨_, _, rfl, rfl, rfl, by decide⟩
  obtain ⟨built, constructed, same⟩ := (@switch_name_iff _ _ _ _ _ _ _ 5 switched
    (@not_fails _ _ 6 _ sent)).mpr (by rw [single]; decide)
  rw [single] at constructed
  exact ⟨state, next, built, made, switched, constructed, same⟩

/-- With three chunks and no link yet the constructor uses the chunk 0 and the
switch uses the chunk 1. -/
theorem switch_name_skips : ∃ state next built,
    create 1 3 (fun _ => none) (ascii "log.#.txt") 4 = some state ∧
    state.switchName 1 (fun _ => none) (ascii "new.#.txt") = some next ∧
    ¬ next.Fails (fun _ => [[0]]) ⟨some 5, none⟩ ∧
    create 1 3 (fun _ => none) (ascii "new.#.txt") 5 = some built ∧
    built.naming.nameIndex = 0 ∧
    (next.doRotate (fun _ => [[0]]) ⟨some 5, none⟩).naming.nameIndex = 1 :=
  ⟨_, _, _, rfl, rfl, not_fails (by decide), rfl, rfl, rfl⟩

end NamedFile

end Hogl.Output
