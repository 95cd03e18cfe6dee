import Hogl.Recover.Coalesce

namespace Hogl.Recover

/-! # Failed loads

The one flag of a core dump is set by a load that fails and cleared by one
that succeeds. -/

/-- The pieces that are looked up from `vma` on fill `size` bytes. -/
inductive Loader.Filled (loader : Loader) (abfd : Bfd) (number : Nat) :
    Nat → UInt64 → UInt64 → Prop
  | done {piece : Nat} {vma : UInt64} : loader.Filled abfd number piece vma 0
  | piece {piece : Nat} {vma size : UInt64} {sect : Asection} (nonzero : size ≠ 0)
      (found : loader.lookup number piece abfd vma = some sect) (fits : ¬ size < sect.size)
      (read : loader.read number piece = true)
      (rest : loader.Filled abfd number (piece + 1) (vma + sect.size) (size - sect.size)) :
      loader.Filled abfd number piece vma size

/-- The memory of a span is allocated and filled. -/
def Loader.Succeeds (loader : Loader) (number : Nat) (span : Span) : Prop :=
  loader.alloc number = true ∧ loader.Filled span.abfd number 0 span.start (span.stop - span.start)

def Section.FullyLoaded (sect : Section) : Prop :=
  ∃ bytes, sect.addr = some bytes ∧ bytes.length = sect.size.toNat

section Failures

variable {loader : Loader} {rounds number : Nat}

theorem Loader.Filled.piece_of {abfd : Bfd} {piece : Nat} {vma size : UInt64} (nonzero : size ≠ 0)
    (filled : loader.Filled abfd number piece vma size) :
    ∃ sect, loader.lookup number piece abfd vma = some sect ∧ ¬ size < sect.size ∧
      loader.read number piece = true ∧
      loader.Filled abfd number (piece + 1) (vma + sect.size) (size - sect.size) := by
  cases filled with
  | done => exact absurd rfl nonzero
  | piece _ found fits read rest => exact ⟨_, found, fits, read, rest⟩

/-- What one round of the piece loop can do. -/
theorem loadPieces_cases {abfd : Bfd} {piece : Nat} {vma size : UInt64} {bytes : List UInt8}
    {ok : Bool}
    (done : loadPieces loader abfd number (rounds + 1) piece vma size = some (bytes, ok)) :
    (size = 0 ∧ bytes = [] ∧ ok = true) ∨
    (size ≠ 0 ∧ ok = false ∧ ∀ sect, loader.lookup number piece abfd vma = some sect →
      ¬ size < sect.size → loader.read number piece = false) ∨
    ∃ sect rest, size ≠ 0 ∧ loader.lookup number piece abfd vma = some sect ∧
      ¬ size < sect.size ∧ loader.read number piece = true ∧ bytes = sect.contents ++ rest ∧
      loadPieces loader abfd number rounds (piece + 1) (vma + sect.size) (size - sect.size) =
        some (rest, ok) := by
  rw [loadPieces] at done
  by_cases empty : size = 0
  · rw [if_pos empty] at done
    cases done
    exact .inl ⟨empty, rfl, rfl⟩
  · rw [if_neg empty] at done
    right
    cases found : loader.lookup number piece abfd vma with
    | none =>
        rw [found] at done
        cases done
        refine .inl ⟨empty, rfl, ?_⟩
        intro _ none
        cases none
    | some sect =>
        simp only [found] at done
        by_cases large : size < sect.size
        · rw [if_pos large] at done
          cases done
          refine .inl ⟨empty, rfl, ?_⟩
          intro _ same fits
          cases same
          exact absurd large fits
        · rw [if_neg large] at done
          cases read : loader.read number piece with
          | false =>
              simp only [read, Bool.false_eq_true, if_false] at done
              cases done
              exact .inl ⟨empty, rfl, fun _ _ _ => rfl⟩
          | true =>
              simp only [read, if_true] at done
              obtain ⟨⟨more, ok'⟩, rest, same⟩ := Option.map_eq_some_iff.mp done
              cases same
              exact .inr ⟨sect, more, empty, rfl, large, rfl, rfl, rest⟩

theorem loadPieces_outcome {abfd : Bfd} {piece : Nat} {vma size : UInt64} {bytes : List UInt8}
    {ok : Bool} (done : loadPieces loader abfd number rounds piece vma size = some (bytes, ok)) :
    (ok = true ↔ loader.Filled abfd number piece vma size) ∧
      (ok = true → bytes.length = size.toNat) := by
  induction rounds generalizing piece vma size bytes ok with
  | zero => cases done
  | succ rounds ih =>
      obtain ⟨rfl, rfl, rfl⟩ | ⟨some, rfl, stops⟩ | ⟨sect, rest, some, found, fits, read, rfl, behind⟩ :=
        loadPieces_cases done
      · exact ⟨iff_of_true rfl .done, fun _ => rfl⟩
      · refine ⟨iff_of_false Bool.false_ne_true ?_, fun other => absurd other Bool.false_ne_true⟩
        intro filled
        obtain ⟨sect, found, fits, read, -⟩ := filled.piece_of some
        rw [stops sect found fits] at read
        cases read
      · obtain ⟨outcome, whole⟩ := ih behind
        constructor
        · rw [outcome]
          constructor
          · intro filled
            exact .piece some found fits read filled
          · intro filled
            obtain ⟨sect', found', -, -, filled'⟩ := filled.piece_of some
            rw [found, Option.some.injEq] at found'
            exact found' ▸ filled'
        · intro good
          have room : sect.size ≤ size := UInt64.not_lt.mp fits
          have less := UInt64.le_iff_toNat_le.mp room
          rw [List.length_append, sect.whole, whole good, UInt64.toNat_sub_of_le _ _ room]
          omega

theorem loadSection_outcome {span : Span} {loaded : Section × Bool}
    (done : loadSection loader rounds number span.chunk = some loaded) :
    (loaded.2 = false ↔ loader.Succeeds number span) ∧
      (loaded.2 = false → loaded.1.FullyLoaded) := by
  rw [loadSection] at done
  split at done
  · rename_i alloc
    obtain ⟨⟨bytes, ok⟩, pieces, rfl⟩ := Option.map_eq_some_iff.mp done
    obtain ⟨outcome, whole⟩ := loadPieces_outcome pieces
    dsimp only
    rw [Bool.not_eq_false', outcome, Loader.Succeeds, and_iff_right alloc]
    refine ⟨Iff.rfl, fun filled => ⟨bytes, rfl, whole (outcome.mpr filled)⟩⟩
  · rename_i failed
    cases done
    refine ⟨iff_of_false Bool.false_ne_true.symm ?_, fun other => absurd other Bool.false_ne_true.symm⟩
    intro succeeds
    exact failed succeeds.1

/-- The flag that loads leave is that of the last one. -/
theorem loadAll_last {list : List Span} {loads : List (Section × Bool)}
    (done : loadAll loader rounds 0 list = some loads) {span : Span}
    (here : list[number]? = some span) (core : Coredump) :
    ∃ final loaded, list.getLast? = some final ∧
      loadSection loader rounds (list.length - 1) final.chunk = some loaded ∧
      (core.afterLoads loads).failed = loaded.2 := by
  obtain ⟨inside, -⟩ := List.getElem?_eq_some_iff.mp here
  have final := List.getElem?_eq_getElem (show list.length - 1 < list.length by omega)
  obtain ⟨loaded, place, load⟩ := loadAll_getElem? done final
  rw [Nat.zero_add] at load
  refine ⟨_, loaded, by rw [List.getLast?_eq_getElem?, final], load, ?_⟩
  rw [Coredump.afterLoads, List.getLast?_eq_getElem?, loadAll_length done, place]
  rfl

theorem load_fails_iff {span : Span} {loaded : Section × Bool}
    (load : loadSection loader rounds number span.chunk = some loaded) :
    loaded.2 = true ↔ ¬ loader.Succeeds number span := by
  rw [← (loadSection_outcome load).1, Bool.not_eq_false]

/-- After a run the flag tells of every failed load, and all sections are
loaded if it is clear, exactly if no load fails or the last one does. -/
theorem failure_kept_iff {files : Bfd → List Asection} {loader : Loader} {rounds : Nat}
    {failed : Bool} {after : Coredump}
    (ends : Coredump.coalesceAndLoadSections { sections := collect files, failed } loader rounds =
      some after) :
    (((∃ number span loaded, (spans (collect files))[number]? = some span ∧
        loadSection loader rounds number span.chunk = some (loaded, true)) → after.failed = true) ∧
      (after.failed = false → ∀ sect ∈ after.sections, sect.FullyLoaded)) ↔
    ((∃ number span, (spans (collect files))[number]? = some span ∧ ¬ loader.Succeeds number span) →
      ∃ span, (spans (collect files)).getLast? = some span ∧
        ¬ loader.Succeeds ((spans (collect files)).length - 1) span) := by
  rw [coalesce_eq, Option.map_eq_some_iff] at ends
  obtain ⟨loads, done, rfl⟩ := ends
  have length := loadAll_length done
  have each {number : Nat} {span : Span} (here : (spans (collect files))[number]? = some span) :
      ∃ loaded, loads[number]? = some loaded ∧
        loadSection loader rounds number span.chunk = some loaded := by
    have loaded := loadAll_getElem? done here
    rwa [Nat.zero_add] at loaded
  constructor
  · intro ⟨kept, _⟩ ⟨number, span, here, fails⟩
    obtain ⟨loaded, -, load⟩ := each here
    have flag : loaded.2 = true := (load_fails_iff load).mpr fails
    have told := kept ⟨number, span, loaded.1, here, by rw [load, ← flag]⟩
    obtain ⟨final, finalLoaded, ends, finalLoad, same⟩ :=
      loadAll_last done here { sections := [], failed }
    exact ⟨final, ends, (load_fails_iff finalLoad).mp (same ▸ told)⟩
  · intro kept
    have told (number : Nat) (span : Span) (here : (spans (collect files))[number]? = some span)
        (fails : ¬ loader.Succeeds number span) :
        (Coredump.afterLoads { sections := [], failed } loads).failed = true := by
      obtain ⟨span', ends, fails'⟩ := kept ⟨number, span, here, fails⟩
      obtain ⟨final, loaded, ends', load, same⟩ :=
        loadAll_last done here { sections := [], failed }
      rw [ends, Option.some.injEq] at ends'
      rw [same, load_fails_iff load, ← ends']
      exact fails'
    constructor
    · intro ⟨number, span, loaded, here, load⟩
      exact told number span here ((load_fails_iff load).mp rfl)
    · intro clear sect member
      obtain ⟨loaded, inside, rfl⟩ := List.mem_map.mp member
      obtain ⟨number, place⟩ := List.mem_iff_getElem?.mp inside
      obtain ⟨bound, -⟩ := List.getElem?_eq_some_iff.mp place
      have here := List.getElem?_eq_getElem (length ▸ bound)
      obtain ⟨loaded', place', load⟩ := each here
      rw [place, Option.some.injEq] at place'
      subst place'
      refine (loadSection_outcome load).2 ?_
      by_contra flag
      have told' := told number _ here ((load_fails_iff load).mp (Bool.not_eq_false _ ▸ flag))
      rw [clear] at told'
      cases told'

end Failures

/-- Two bytes apart from each other. -/
def twoBytes : Bfd → List Asection
  | .core =>
      [{ vma := 0x1000, size := 1, contents := [0x41], whole := rfl, inside := by decide },
        { vma := 0x3000, size := 1, contents := [0x42], whole := rfl, inside := by decide }]
  | .exec => []

theorem two_loads_succeed :
    ∃ after, Coredump.coalesceAndLoadSections { sections := collect twoBytes, failed := false }
        (.ofFiles twoBytes) 2 = some after ∧
      ∀ sect ∈ after.sections, sect.FullyLoaded := by
  refine ⟨_, rfl, ?_⟩
  have kept := @failure_kept_iff twoBytes (.ofFiles twoBytes) 2 false _ rfl
  refine (kept.mpr ?_).2 rfl
  intro ⟨number, span, here, fails⟩
  refine absurd ?_ fails
  have filled (number : Nat) (vma : UInt64) (sect : Asection) (size : sect.size = 1)
      (found : (twoBytes .core).find? (fun sect => sect.vma = vma) = some sect) :
      (Loader.ofFiles twoBytes).Filled .core number 0 vma 1 := by
    refine .piece (by decide) found (by rw [size]; decide) rfl ?_
    rw [size]
    exact .done
  match number, here with
  | 0, rfl => exact ⟨rfl, filled 0 0x1000 _ rfl rfl⟩
  | 1, rfl => exact ⟨rfl, filled 1 0x3000 _ rfl rfl⟩

/-- The first allocation fails, and the second load clears the flag. -/
theorem first_failure_forgotten :
    ∃ after, Coredump.coalesceAndLoadSections { sections := collect twoBytes, failed := false }
        { Loader.ofFiles twoBytes with alloc := fun number => number != 0 } 2 = some after ∧
      after.failed = false ∧
      (∃ sect ∈ after.sections, sect.addr = none) ∧
      ∃ number span loaded, (spans (collect twoBytes))[number]? = some span ∧
        loadSection { Loader.ofFiles twoBytes with alloc := fun number => number != 0 } 2 number
          span.chunk = some (loaded, true) :=
  ⟨_, rfl, rfl, ⟨_, List.mem_cons_self, rfl⟩, 0, _, _, rfl, rfl⟩

end Hogl.Recover
