import Hogl.Recover.Coredump

namespace Hogl.Recover

/-! # Loading the sections

`add_section`, `coalesce_and_load_sections` and `load_section` of
`tools/coredump.cc`.  The outcomes of allocations, lookups and reads are those
of a loader, by the number of the load and of the piece in it.  The piece loop
has a result if it ends within the given number of rounds. -/

/-- A section of a BFD. -/
structure Asection where
  vma : UInt64
  size : UInt64
  contents : List UInt8
  whole : contents.length = size.toNat
  inside : vma.toNat + size.toNat ≤ 2 ^ 64

/-- `section_set::insert`, which keeps the section that has the `vma` already. -/
def insertSection (sect : Section) : List Section → List Section
  | [] => [sect]
  | first :: rest =>
      if sect.vma < first.vma then sect :: first :: rest
      else if first.vma < sect.vma then first :: insertSection sect rest
      else first :: rest

/-- A section before it is loaded. -/
def Asection.entry (sect : Asection) (abfd : Bfd) : Section :=
  { vma := sect.vma, size := sect.size, addr := none, abfd }

def addSection (abfd : Bfd) (sections : List Section) (sect : Asection) : List Section :=
  if sect.vma = 0 ∨ sect.size = 0 then sections else insertSection (sect.entry abfd) sections

/-- `coredump::load`. -/
def load (abfd : Bfd) (sects : List Asection) (sections : List Section) : List Section :=
  sects.foldl (addSection abfd) sections

/-- The set that the constructor collects: the core file comes first. -/
def collect (files : Bfd → List Asection) : List Section :=
  load .exec (files .exec) (load .core (files .core) [])

structure Loader where
  alloc : Nat → Bool
  lookup : Nat → Nat → Bfd → UInt64 → Option Asection
  read : Nat → Nat → Bool

/-- Everything succeeds, and a lookup returns the first match of the file. -/
def Loader.ofFiles (files : Bfd → List Asection) : Loader where
  alloc _ := true
  lookup _ _ abfd vma := (files abfd).find? fun sect => sect.vma = vma
  read _ _ := true

/-- The loop of `load_section`: the bytes read, and whether all were. -/
def loadPieces (loader : Loader) (abfd : Bfd) (number : Nat) :
    Nat → Nat → UInt64 → UInt64 → Option (List UInt8 × Bool)
  | 0, _, _, _ => none
  | rounds + 1, piece, vma, size =>
      if size = 0 then some ([], true)
      else match loader.lookup number piece abfd vma with
        | none => some ([], false)
        | some sect =>
            if size < sect.size then some ([], false)
            else if loader.read number piece then
              (loadPieces loader abfd number rounds (piece + 1) (vma + sect.size) (size - sect.size)).map
                fun rest => (sect.contents ++ rest.1, rest.2)
            else some ([], false)

/-- The loaded section with what `failed` becomes. -/
def loadSection (loader : Loader) (rounds number : Nat) (sect : Section) : Option (Section × Bool) :=
  if loader.alloc number then
    (loadPieces loader sect.abfd number rounds 0 sect.vma sect.size).map
      fun loaded => ({ sect with addr := some loaded.1 }, !loaded.2)
  else some ({ sect with addr := none }, true)

/-- `start`, `end` and `abfd` of the current section; no section was seen while
`start` is zero, and `abfd` is not read then. -/
structure Span where
  start : UInt64
  stop : UInt64
  abfd : Bfd
deriving Repr, DecidableEq

structure Coredump where
  sections : List Section
  failed : Bool
deriving Repr, DecidableEq

def Span.chunk (span : Span) : Section :=
  { vma := span.start, size := span.stop - span.start, addr := none, abfd := span.abfd }

/-- Allocate the current section. -/
def flush (loader : Loader) (rounds number : Nat) (core : Coredump) (span : Span) :
    Option Coredump :=
  (loadSection loader rounds number span.chunk).map fun loaded =>
    { sections := insertSection loaded.1 core.sections, failed := loaded.2 }

def Section.span (sect : Section) : Span :=
  { start := sect.vma, stop := sect.vma + sect.size, abfd := sect.abfd }

/-- The loop of `coalesce_and_load_sections`; `number` counts the loads. -/
def coalesceFrom (loader : Loader) (rounds : Nat) :
    Nat → Span → Coredump → List Section → Option Coredump
  | number, span, core, [] =>
      if span.start ≠ 0 then flush loader rounds number core span else some core
  | number, span, core, sect :: rest =>
      if span.start = 0 then coalesceFrom loader rounds number sect.span core rest
      else if sect.abfd = span.abfd ∧ sect.vma = span.stop then
        coalesceFrom loader rounds number { span with stop := span.stop + sect.size } core rest
      else do
        let core ← flush loader rounds number core span
        coalesceFrom loader rounds (number + 1) sect.span core rest

def Coredump.coalesceAndLoadSections (core : Coredump) (loader : Loader) (rounds : Nat) :
    Option Coredump :=
  coalesceFrom loader rounds 0 { start := 0, stop := 0, abfd := .core }
    { sections := [], failed := core.failed } core.sections

/-! ## The set -/

section Collect

variable {sect other : Section} {sections : List Section} {abfd : Bfd}

theorem mem_insertSection (member : other ∈ insertSection sect sections) :
    other = sect ∨ other ∈ sections := by
  induction sections with
  | nil => exact .inl (List.mem_singleton.mp member)
  | cons first rest ih =>
      rw [insertSection] at member
      split at member
      · exact List.mem_cons.mp member
      · split at member
        · rcases List.mem_cons.mp member with here | behind
          · exact .inr (here ▸ List.mem_cons_self)
          · rcases ih behind with new | old
            · exact .inl new
            · exact .inr (List.mem_cons_of_mem first old)
        · exact .inr member

/-- The set is ordered, without two sections of one `vma`. -/
def Ordered (sections : List Section) : Prop :=
  sections.Pairwise fun first second => first.vma < second.vma

theorem insertSection_ordered (ordered : Ordered sections) :
    Ordered (insertSection sect sections) := by
  induction sections with
  | nil => exact List.pairwise_singleton _ _
  | cons first rest ih =>
      obtain ⟨before, tail⟩ := List.pairwise_cons.mp ordered
      rw [insertSection]
      split
      · rename_i less
        refine List.pairwise_cons.mpr ⟨?_, ordered⟩
        intro other member
        rcases List.mem_cons.mp member with rfl | behind
        · exact less
        · exact UInt64.lt_trans less (before other behind)
      · split
        · rename_i greater
          refine List.pairwise_cons.mpr ⟨?_, ih tail⟩
          intro other member
          rcases mem_insertSection member with rfl | behind
          · exact greater
          · exact before other behind
        · exact ordered

/-- A section behind all others. -/
theorem insertSection_last (behind : ∀ other ∈ sections, other.vma < sect.vma) :
    insertSection sect sections = sections ++ [sect] := by
  induction sections with
  | nil => rfl
  | cons first rest ih =>
      have less := behind first List.mem_cons_self
      have asymm : ¬ sect.vma < first.vma := UInt64.lt_asymm less
      rw [insertSection, if_neg asymm, if_pos less,
        ih fun other member => behind other (List.mem_cons_of_mem first member)]
      rfl

theorem addSection_ordered (ordered : Ordered sections) (sect : Asection) :
    Ordered (addSection abfd sections sect) := by
  rw [addSection]
  split
  · exact ordered
  · exact insertSection_ordered ordered

theorem load_ordered (ordered : Ordered sections) (sects : List Asection) :
    Ordered (load abfd sects sections) := by
  induction sects generalizing sections with
  | nil => exact ordered
  | cons sect rest ih => exact ih (addSection_ordered ordered sect)

theorem collect_ordered (files : Bfd → List Asection) : Ordered (collect files) :=
  load_ordered (load_ordered List.Pairwise.nil _) _

theorem mem_load {sects : List Asection} (member : other ∈ load abfd sects sections) :
    other ∈ sections ∨
      ∃ sect ∈ sects, other = sect.entry abfd ∧ sect.vma ≠ 0 ∧ sect.size ≠ 0 := by
  induction sects generalizing sections with
  | nil => exact .inl member
  | cons sect rest ih =>
      rcases ih member with added | ⟨found, inside, entry⟩
      · rw [addSection] at added
        split at added
        · exact .inl added
        · rename_i accepted
          rcases mem_insertSection added with new | old
          · exact .inr ⟨sect, List.mem_cons_self, new, not_or.mp accepted⟩
          · exact .inl old
      · exact .inr ⟨found, List.mem_cons_of_mem sect inside, entry⟩

theorem mem_collect {files : Bfd → List Asection} (member : other ∈ collect files) :
    ∃ sect ∈ files other.abfd, other = sect.entry other.abfd ∧ sect.vma ≠ 0 ∧ sect.size ≠ 0 := by
  rcases mem_load member with first | ⟨sect, inside, rfl, nonzero⟩
  · rcases mem_load first with none | ⟨sect, inside, rfl, nonzero⟩
    · cases none
    · exact ⟨sect, inside, rfl, nonzero⟩
  · exact ⟨sect, inside, rfl, nonzero⟩

end Collect

/-! ## The spans -/

section Spans

variable {loader : Loader} {rounds : Nat}

/-- The spans that are flushed, from the current one on. -/
def spansFrom (span : Span) : List Section → List Span
  | [] => [span]
  | sect :: rest =>
      if sect.abfd = span.abfd ∧ sect.vma = span.stop then
        spansFrom { span with stop := span.stop + sect.size } rest
      else span :: spansFrom sect.span rest

def spans : List Section → List Span
  | [] => []
  | sect :: rest => spansFrom sect.span rest

/-- The loads of spans, one after the other. -/
def loadAll (loader : Loader) (rounds : Nat) : Nat → List Span → Option (List (Section × Bool))
  | _, [] => some []
  | number, span :: rest => do
      let loaded ← loadSection loader rounds number span.chunk
      let loads ← loadAll loader rounds (number + 1) rest
      return loaded :: loads

theorem loadAll_exists {list : List Span}
    (each : ∀ span ∈ list, ∀ number, ∃ loaded,
      loadSection loader rounds number span.chunk = some loaded) (number : Nat) :
    ∃ loads, loadAll loader rounds number list = some loads := by
  induction list generalizing number with
  | nil => exact ⟨[], rfl⟩
  | cons span rest ih =>
      obtain ⟨loaded, head⟩ := each span List.mem_cons_self number
      obtain ⟨more, tail⟩ := ih
        (fun other member => each other (List.mem_cons_of_mem span member)) (number + 1)
      exact ⟨loaded :: more, by rw [loadAll, head, Option.bind_eq_bind, Option.bind_some, tail]; rfl⟩

theorem loadAll_length {number : Nat} {list : List Span} {loads : List (Section × Bool)}
    (done : loadAll loader rounds number list = some loads) : loads.length = list.length := by
  induction list generalizing number loads with
  | nil =>
      cases done
      rfl
  | cons span rest ih =>
      simp only [loadAll, Option.bind_eq_bind, Option.bind_eq_some_iff] at done
      obtain ⟨loaded, -, more, tail, same⟩ := done
      cases same
      rw [List.length_cons, List.length_cons, ih tail]

/-- Each span has its load. -/
theorem loadAll_getElem? {number index : Nat} {list : List Span} {span : Span}
    {loads : List (Section × Bool)} (done : loadAll loader rounds number list = some loads)
    (here : list[index]? = some span) :
    ∃ loaded, loads[index]? = some loaded ∧
      loadSection loader rounds (number + index) span.chunk = some loaded := by
  induction list generalizing number index loads with
  | nil => cases here
  | cons first rest ih =>
      simp only [loadAll, Option.bind_eq_bind, Option.bind_eq_some_iff] at done
      obtain ⟨loaded, head, more, tail, same⟩ := done
      cases same
      cases index with
      | zero =>
          cases here
          exact ⟨loaded, rfl, head⟩
      | succ index =>
          obtain ⟨found, place, load⟩ := ih tail here
          refine ⟨found, place, ?_⟩
          rwa [Nat.add_assoc, Nat.add_comm 1] at load

/-- What loads make of a set and its flag. -/
def Coredump.afterLoads (core : Coredump) (loads : List (Section × Bool)) : Coredump :=
  { sections := core.sections ++ loads.map Prod.fst,
    failed := (loads.getLast?.map Prod.snd).getD core.failed }

theorem afterLoads_cons (core : Coredump) (loaded : Section × Bool)
    (loads : List (Section × Bool)) :
    core.afterLoads (loaded :: loads) = (core.afterLoads [loaded]).afterLoads loads := by
  cases loads with
  | nil => simp [Coredump.afterLoads]
  | cons next more =>
      cases last : (next :: more).getLast? with
      | none => simp at last
      | some final => simp [Coredump.afterLoads, List.getLast?_cons_cons, last]

theorem Ordered.restart {sect : Section} {rest : List Section} (ordered : Ordered (sect :: rest)) :
    Ordered (sect.span.chunk :: rest) :=
  List.pairwise_cons.mpr (List.pairwise_cons.mp ordered)

/-- A load keeps the addresses and the file. -/
theorem loadSection_kept {number : Nat} {sect : Section} {loaded : Section × Bool}
    (done : loadSection loader rounds number sect = some loaded) :
    loaded.1.vma = sect.vma ∧ loaded.1.size = sect.size ∧ loaded.1.abfd = sect.abfd := by
  rw [loadSection] at done
  split at done
  · obtain ⟨result, -, rfl⟩ := Option.map_eq_some_iff.mp done
    exact ⟨rfl, rfl, rfl⟩
  · cases done
    exact ⟨rfl, rfl, rfl⟩

theorem flush_eq {number : Nat} {span : Span} {core : Coredump}
    (behind : ∀ sect ∈ core.sections, sect.vma < span.start) :
    flush loader rounds number core span =
      (loadSection loader rounds number span.chunk).map fun loaded => core.afterLoads [loaded] := by
  rw [flush]
  cases done : loadSection loader rounds number span.chunk with
  | none => rfl
  | some loaded =>
      have start : loaded.1.vma = span.start := (loadSection_kept done).1
      rw [Option.map_some, Option.map_some, insertSection_last (start ▸ behind)]
      rfl

/-- The loop flushes the spans one after the other. -/
theorem coalesceFrom_eq {number : Nat} {span : Span} {core : Coredump} {sections : List Section}
    (started : span.start ≠ 0) (nonzero : ∀ sect ∈ sections, sect.vma ≠ 0)
    (behind : ∀ sect ∈ core.sections, sect.vma < span.start)
    (ordered : Ordered (span.chunk :: sections)) :
    coalesceFrom loader rounds number span core sections =
      (loadAll loader rounds number (spansFrom span sections)).map core.afterLoads := by
  induction sections generalizing number span core with
  | nil =>
      rw [coalesceFrom, if_pos started, flush_eq behind, spansFrom, loadAll]
      cases loadSection loader rounds number span.chunk <;> rfl
  | cons sect rest ih =>
      obtain ⟨first, tail⟩ := List.pairwise_cons.mp ordered
      have nonzero' : ∀ other ∈ rest, other.vma ≠ 0 := fun other member =>
        nonzero other (List.mem_cons_of_mem sect member)
      rw [coalesceFrom, if_neg started, spansFrom]
      split
      · let longer : Span := { span with stop := span.stop + sect.size }
        have ordered' : Ordered (longer.chunk :: rest) := List.pairwise_cons.mpr
          ⟨fun other member => first other (List.mem_cons_of_mem sect member),
            (List.pairwise_cons.mp tail).2⟩
        exact @ih number longer core started nonzero' behind ordered'
      · rw [flush_eq behind, loadAll]
        cases done : loadSection loader rounds number span.chunk with
        | none => rfl
        | some loaded =>
            have start : loaded.1.vma = span.start := (loadSection_kept done).1
            have before : span.start < sect.vma := first sect List.mem_cons_self
            have behind' : ∀ other ∈ (core.afterLoads [loaded]).sections,
                other.vma < sect.span.start := by
              intro other member
              rcases List.mem_append.mp member with old | new
              · exact UInt64.lt_trans (behind other old) before
              · rw [List.map_singleton, List.mem_singleton] at new
                rw [new, start]
                exact before
            have rest := @ih (number + 1) sect.span (core.afterLoads [loaded])
              (nonzero sect List.mem_cons_self) nonzero' behind' (Ordered.restart tail)
            simp only [Option.map_some, Option.bind_eq_bind, Option.bind_some, rest]
            cases loadAll loader rounds (number + 1) (spansFrom sect.span _) with
            | none => rfl
            | some loads =>
                rw [Option.map_some, Option.bind_some]
                exact congrArg some (afterLoads_cons core loaded loads).symm

/-- `coalesce_and_load_sections` loads the spans of the set. -/
theorem coalesce_eq (files : Bfd → List Asection) (loader : Loader) (rounds : Nat) (failed : Bool) :
    Coredump.coalesceAndLoadSections { sections := collect files, failed } loader rounds =
      (loadAll loader rounds 0 (spans (collect files))).map
        (Coredump.afterLoads { sections := [], failed }) := by
  have nonzero : ∀ sect ∈ collect files, sect.vma ≠ 0 := by
    intro sect member
    obtain ⟨found, -, entry, start, -⟩ := mem_collect member
    rw [entry]
    exact start
  have ordered := collect_ordered files
  rw [Coredump.coalesceAndLoadSections]
  dsimp only
  cases set : collect files with
  | nil => rfl
  | cons sect rest =>
      rw [set] at nonzero ordered
      rw [coalesceFrom, if_pos rfl, spans]
      apply coalesceFrom_eq (nonzero sect List.mem_cons_self)
        (fun other member => nonzero other (List.mem_cons_of_mem sect member))
      · intro other none
        cases none
      · exact Ordered.restart ordered

end Spans

end Hogl.Recover
