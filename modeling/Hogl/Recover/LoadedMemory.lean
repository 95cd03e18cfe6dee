import Hogl.Recover.Coalesce
import Mathlib.Data.List.Forall2

namespace Hogl.Recover

/-! # What is in memory after the loads

The spans are made of sections of one file that follow one another.  The piece
loop finds these sections again by their `vma`, as long as no empty section of
the file stands in front of one of them under the same `vma`. -/

def Asection.stop (sect : Asection) : Nat := sect.vma.toNat + sect.size.toNat

/-- The sections with bytes of one file do not overlap. -/
def Apart (files : Bfd → List Asection) : Prop :=
  ∀ abfd, (files abfd).Pairwise fun first second =>
    first.size = 0 ∨ second.size = 0 ∨ first.stop ≤ second.vma.toNat ∨ second.stop ≤ first.vma.toNat

/-- `add_section` put the section of the file into the set. -/
def Accepted (files : Bfd → List Asection) (abfd : Bfd) (sect : Asection) : Prop :=
  sect ∈ files abfd ∧ sect.entry abfd ∈ collect files

/-- No empty section of the same `vma` stands in front of the section. -/
def Unshadowed (files : Bfd → List Asection) (abfd : Bfd) (sect : Asection) : Prop :=
  ∀ front back, files abfd = front ++ sect :: back →
    ∀ earlier ∈ front, earlier.vma = sect.vma → earlier.size ≠ 0

section Lookup

variable {files : Bfd → List Asection} {abfd : Bfd} {sect : Asection}

theorem Accepted.nonzero (accepted : Accepted files abfd sect) : sect.vma ≠ 0 ∧ sect.size ≠ 0 := by
  obtain ⟨found, -, entry, vma, size⟩ := mem_collect accepted.2
  rw [Asection.entry, Asection.entry, Section.mk.injEq] at entry
  rw [entry.1, entry.2.1]
  exact ⟨vma, size⟩

theorem size_positive {size : UInt64} (nonzero : size ≠ 0) : 0 < size.toNat := by
  rw [Nat.pos_iff_ne_zero, Ne, ← UInt64.toNat_zero, UInt64.toNat_inj]
  exact nonzero

/-- The first match has bytes only if it is the section itself. -/
theorem lookup_cases (apart : Apart files) (accepted : Accepted files abfd sect) :
    ∃ found, (files abfd).find? (fun other => other.vma = sect.vma) = some found ∧
      (found = sect ∨ found.size = 0) := by
  have positive := size_positive accepted.nonzero.2
  have somewhere : ((files abfd).find? fun other => other.vma = sect.vma).isSome = true := by
    rw [List.find?_isSome]
    exact ⟨sect, accepted.1, decide_eq_true rfl⟩
  obtain ⟨found, match'⟩ := Option.isSome_iff_exists.mp somewhere
  refine ⟨found, match', ?_⟩
  by_contra neither
  obtain ⟨different, size⟩ := not_or.mp neither
  have positive' := size_positive size
  have vma := List.find?_some match'
  rw [decide_eq_true_iff] at vma
  have symmetric : Std.Symm fun first second : Asection =>
      first.size = 0 ∨ second.size = 0 ∨ first.stop ≤ second.vma.toNat ∨
        second.stop ≤ first.vma.toNat := by
    refine ⟨fun first second either => ?_⟩
    rcases either with empty | empty | before | behind
    · exact .inr (.inl empty)
    · exact .inl empty
    · exact .inr (.inr (.inr before))
    · exact .inr (.inr (.inl behind))
  have far := (apart abfd).forall (List.mem_of_find?_eq_some match') accepted.1 different
  simp only [Asection.stop, vma, size, accepted.nonzero.2, false_or] at far
  omega

theorem lookup_iff (apart : Apart files) (accepted : Accepted files abfd sect) :
    (files abfd).find? (fun other => other.vma = sect.vma) = some sect ↔
      Unshadowed files abfd sect := by
  have size := accepted.nonzero.2
  constructor
  · intro found front back whole earlier before vma empty
    have inFront : (front.find? fun other => other.vma = sect.vma).isSome = true := by
      rw [List.find?_isSome]
      exact ⟨earlier, before, decide_eq_true vma⟩
    obtain ⟨first, match'⟩ := Option.isSome_iff_exists.mp inFront
    rw [whole, List.find?_append, match', Option.some_or, Option.some.injEq] at found
    have again : sect ∈ front := found ▸ List.mem_of_find?_eq_some match'
    have pairs := apart abfd
    rw [whole, List.pairwise_append] at pairs
    have self := pairs.2.2 sect again sect List.mem_cons_self
    have positive := size_positive size
    simp only [Asection.stop, size, false_or] at self
    omega
  · intro unshadowed
    obtain ⟨found, match', same | empty⟩ := lookup_cases apart accepted
    · rw [match', same]
    · obtain ⟨vma, front, back, whole, skipped⟩ := List.find?_eq_some_iff_append.mp match'
      have member := accepted.1
      rw [whole, List.mem_append, List.mem_cons] at member
      rcases member with before | here | behind
      · have skip := skipped sect before
        simp at skip
      · exact absurd (here ▸ empty) size
      · obtain ⟨middle, rest, split⟩ := List.append_of_mem behind
        refine absurd empty (unshadowed (front ++ found :: middle) rest ?_ found ?_
          (of_decide_eq_true vma))
        · rw [whole, split, List.append_assoc]
          rfl
        · exact List.mem_append_right _ List.mem_cons_self

end Lookup

/-! ## The sections of a span -/

/-- Sections of one file that follow one another from `start` to `stop`. -/
def Joins (abfd : Bfd) : Nat → List Section → Nat → Prop
  | start, [], stop => start = stop
  | start, sect :: rest, stop =>
      sect.abfd = abfd ∧ sect.vma.toNat = start ∧ Joins abfd sect.stop rest stop

/-- A span and the sections it is made of. -/
def Grouped (span : Span) (group : List Section) : Prop :=
  group ≠ [] ∧ ∃ stop, stop ≤ 2 ^ 64 ∧ Joins span.abfd span.start.toNat group stop ∧
    span.stop.toNat = stop % 2 ^ 64

section Groups

variable {abfd : Bfd} {start stop : Nat} {group : List Section} {sect : Section}

theorem Joins.snoc (joins : Joins abfd start group stop) (file : sect.abfd = abfd)
    (next : sect.vma.toNat = stop) : Joins abfd start (group ++ [sect]) sect.stop := by
  induction group generalizing start with
  | nil => exact ⟨file, next.trans joins.symm, rfl⟩
  | cons first rest ih => exact ⟨joins.1, joins.2.1, ih joins.2.2⟩

theorem Joins.le (joins : Joins abfd start group stop) : start ≤ stop := by
  induction group generalizing start with
  | nil => exact Nat.le_of_eq joins
  | cons first rest ih =>
      have tail := ih joins.2.2
      rw [Section.stop, joins.2.1] at tail
      omega

theorem Joins.bounds (joins : Joins abfd start group stop) (member : sect ∈ group) :
    sect.abfd = abfd ∧ start ≤ sect.vma.toNat ∧ sect.stop ≤ stop := by
  induction group generalizing start with
  | nil => cases member
  | cons first rest ih =>
      obtain ⟨file, place, tail⟩ := joins
      rcases List.mem_cons.mp member with rfl | behind
      · exact ⟨file, Nat.le_of_eq place.symm, tail.le⟩
      · obtain ⟨file', low, high⟩ := ih tail behind
        have ends : first.vma.toNat ≤ first.stop := Nat.le_add_right _ _
        exact ⟨file', by omega, high⟩

/-- Sections in the address space that are not at zero. -/
def Section.Proper (sect : Section) : Prop :=
  sect.vma ≠ 0 ∧ sect.size ≠ 0 ∧ sect.stop ≤ 2 ^ 64

theorem Section.span_grouped (proper : sect.Proper) : Grouped sect.span [sect] := by
  refine ⟨List.cons_ne_nil _ _, sect.stop, proper.2.2, ⟨rfl, rfl, rfl⟩, ?_⟩
  rw [Section.span, UInt64.toNat_add]
  rfl

/-- The spans divide the sections into groups. -/
theorem spansFrom_grouped {span : Span} {sections : List Section} (grouped : Grouped span group)
    (proper : ∀ sect ∈ sections, sect.Proper) :
    ∃ groups, groups.flatten = group ++ sections ∧
      List.Forall₂ Grouped (spansFrom span sections) groups := by
  induction sections generalizing span group with
  | nil => exact ⟨[group], by simp, .cons grouped .nil⟩
  | cons sect rest ih =>
      have proper' : ∀ other ∈ rest, other.Proper := fun other member =>
        proper other (List.mem_cons_of_mem sect member)
      have here := proper sect List.mem_cons_self
      rw [spansFrom]
      split
      · rename_i continues
        obtain ⟨nonempty, stop, inside, joins, stopEq⟩ := grouped
        have next : sect.vma.toNat = stop := by
          have vma := size_positive here.1
          rw [continues.2, stopEq] at vma ⊢
          rcases Nat.lt_or_eq_of_le inside with below | last
          · exact Nat.mod_eq_of_lt below
          · rw [last, Nat.mod_self] at vma
            exact absurd vma (Nat.lt_irrefl 0)
        have longer : Grouped { span with stop := span.stop + sect.size } (group ++ [sect]) := by
          refine ⟨by simp, sect.stop, here.2.2, joins.snoc continues.1 next, ?_⟩
          rw [UInt64.toNat_add, ← continues.2]
          rfl
        obtain ⟨groups, flat, each⟩ := ih longer proper'
        exact ⟨groups, by simpa using flat, each⟩
      · obtain ⟨groups, flat, each⟩ := ih (Section.span_grouped here) proper'
        exact ⟨group :: groups, by simpa using flat, .cons grouped each⟩

theorem collect_proper (files : Bfd → List Asection) : ∀ sect ∈ collect files, sect.Proper := by
  intro sect member
  obtain ⟨found, -, entry, vma, size⟩ := mem_collect member
  rw [entry]
  exact ⟨vma, size, found.inside⟩

theorem spans_grouped (files : Bfd → List Asection) :
    ∃ groups, groups.flatten = collect files ∧
      List.Forall₂ Grouped (spans (collect files)) groups := by
  have proper := collect_proper files
  cases set : collect files with
  | nil => exact ⟨[], rfl, .nil⟩
  | cons sect rest =>
      rw [set] at proper
      exact spansFrom_grouped (Section.span_grouped (proper sect List.mem_cons_self))
        fun other member => proper other (List.mem_cons_of_mem sect member)

end Groups

/-! ## The pieces of a span -/

section Pieces

variable {files : Bfd → List Asection} {abfd : Bfd} {start stop : Nat} {group : List Section}

/-- The file's first section at the `vma` of `sect` is `found`. -/
def Looks (files : Bfd → List Asection) (abfd : Bfd) (sect : Section) (found : Asection) : Prop :=
  (files abfd).find? (fun other => other.vma = sect.vma) = some found

/-- An empty section is read again and again. -/
theorem loadPieces_stuck {vma size : UInt64} {found : Asection} (nonzero : size ≠ 0)
    (first : (files abfd).find? (fun other => other.vma = vma) = some found)
    (empty : found.size = 0) (number rounds piece : Nat) :
    loadPieces (.ofFiles files) abfd number rounds piece vma size = none := by
  induction rounds generalizing piece with
  | zero => rfl
  | succ rounds ih =>
      have positive : ¬ size < 0 := UInt64.not_lt.mpr UInt64.zero_le
      simp only [loadPieces, if_neg nonzero, Loader.ofFiles, first, empty, if_neg positive, if_true,
        UInt64.add_zero, UInt64.sub_zero]
      rw [Option.map_eq_none_iff]
      exact ih (piece + 1)

/-- A piece that is found again. -/
theorem loadPieces_piece {vma size : UInt64} {found : Asection} (nonzero : size ≠ 0)
    (first : (files abfd).find? (fun other => other.vma = vma) = some found)
    (fits : found.size ≤ size) (number rounds piece : Nat) :
    loadPieces (.ofFiles files) abfd number (rounds + 1) piece vma size =
      (loadPieces (.ofFiles files) abfd number rounds (piece + 1) (vma + found.size)
        (size - found.size)).map fun rest => (found.contents ++ rest.1, rest.2) := by
  simp only [loadPieces, if_neg nonzero, Loader.ofFiles, first, if_neg (UInt64.not_lt.mpr fits),
    if_true]

/-- What the memory of a span holds for its sections. -/
def Holds (files : Bfd → List Asection) (abfd : Bfd) (start : Nat) (bytes : List UInt8)
    (sect : Section) : Prop :=
  ∀ found, Looks files abfd sect found → ∀ offset < sect.size.toNat,
    bytes[sect.vma.toNat - start + offset]? = found.contents[offset]?

/-- A piece of a group is not larger than what is left, and leaves the rest. -/
theorem Joins.piece {sect : Section} {rest : List Section} {size : UInt64}
    (joins : Joins abfd start (sect :: rest) stop) (nonzero : sect.size ≠ 0)
    (sizeEq : size.toNat = stop - start) :
    size ≠ 0 ∧ sect.size ≤ size ∧ (size - sect.size).toNat = stop - sect.stop ∧
      (sect.vma + sect.size).toNat = sect.stop % 2 ^ 64 := by
  have positive := size_positive nonzero
  have tail := joins.2.2.le
  have place := joins.2.1
  simp only [Section.stop] at *
  have fits : sect.size ≤ size := by
    rw [UInt64.le_iff_toNat_le, sizeEq]
    omega
  refine ⟨?_, fits, ?_, UInt64.toNat_add _ _⟩
  · rw [Ne, ← UInt64.toNat_inj, sizeEq, UInt64.toNat_zero]
    omega
  · rw [UInt64.toNat_sub_of_le _ _ fits, sizeEq]
    omega

/-- Sections that are found again are loaded. -/
theorem loadPieces_group (joins : Joins abfd start group stop)
    (nonzero : ∀ sect ∈ group, sect.size ≠ 0)
    (again : ∀ sect ∈ group, ∃ found, Looks files abfd sect found ∧ found.size = sect.size)
    {vma size : UInt64} (vmaEq : vma.toNat = start % 2 ^ 64) (sizeEq : size.toNat = stop - start)
    {rounds : Nat} (enough : group.length < rounds) (number piece : Nat) :
    ∃ bytes, loadPieces (.ofFiles files) abfd number rounds piece vma size = some (bytes, true) ∧
      ∀ sect ∈ group, Holds files abfd start bytes sect := by
  induction group generalizing start vma size rounds piece with
  | nil =>
      obtain ⟨rounds, rfl⟩ := Nat.exists_eq_succ_of_ne_zero (Nat.ne_of_gt enough)
      have empty : size = 0 := by
        rw [← UInt64.toNat_inj, sizeEq, joins, Nat.sub_self]
        rfl
      refine ⟨[], by rw [loadPieces, if_pos empty], ?_⟩
      intro sect none
      cases none
  | cons sect rest ih =>
      obtain ⟨rounds, rfl⟩ := Nat.exists_eq_succ_of_ne_zero (Nat.ne_of_gt (Nat.zero_lt_of_lt enough))
      have here := nonzero sect List.mem_cons_self
      obtain ⟨some, fits, left, next⟩ := joins.piece here sizeEq
      obtain ⟨found, looks, same⟩ := again sect List.mem_cons_self
      have place : vma = sect.vma := by
        rw [← UInt64.toNat_inj, vmaEq, joins.2.1.symm]
        exact Nat.mod_eq_of_lt sect.vma.toNat_lt
      obtain ⟨bytes, loaded, holds⟩ := ih joins.2.2
        (fun other member => nonzero other (List.mem_cons_of_mem sect member))
        (fun other member => again other (List.mem_cons_of_mem sect member))
        next left (Nat.lt_of_succ_lt_succ enough) (piece + 1)
      refine ⟨found.contents ++ bytes, ?_, ?_⟩
      · rw [place, loadPieces_piece some looks (same ▸ fits), same, loaded]
        rfl
      · intro other member found' looks' offset within
        rcases List.mem_cons.mp member with rfl | behind
        · rw [Looks, looks, Option.some.injEq] at looks'
          rw [joins.2.1, Nat.sub_self, Nat.zero_add, ← looks', List.getElem?_append_left]
          rw [found.whole, same]
          exact within
        · have far := joins.2.2.bounds behind
          have stops : sect.stop = start + sect.size.toNat := by rw [Section.stop, joins.2.1]
          rw [← holds other behind found' looks' offset within, List.getElem?_append_right]
          · congr 1
            rw [found.whole, same]
            omega
          · rw [found.whole, same]
            omega

/-- One piece whose lookup stops at an empty section is enough to stay there. -/
theorem loadPieces_endless (joins : Joins abfd start group stop)
    (nonzero : ∀ sect ∈ group, sect.size ≠ 0)
    (either : ∀ sect ∈ group, ∃ found, Looks files abfd sect found ∧
      (found.size = sect.size ∨ found.size = 0))
    (stuck : ∃ sect ∈ group, ∃ found, Looks files abfd sect found ∧ found.size = 0)
    {vma size : UInt64} (vmaEq : vma.toNat = start % 2 ^ 64) (sizeEq : size.toNat = stop - start)
    (number rounds piece : Nat) :
    loadPieces (.ofFiles files) abfd number rounds piece vma size = none := by
  induction group generalizing start vma size rounds piece with
  | nil =>
      obtain ⟨sect, none, -⟩ := stuck
      cases none
  | cons sect rest ih =>
      have here := nonzero sect List.mem_cons_self
      obtain ⟨some, fits, left, next⟩ := joins.piece here sizeEq
      have place : vma = sect.vma := by
        rw [← UInt64.toNat_inj, vmaEq, joins.2.1.symm]
        exact Nat.mod_eq_of_lt sect.vma.toNat_lt
      obtain ⟨found, looks, same | empty⟩ := either sect List.mem_cons_self
      · cases rounds with
        | zero => rfl
        | succ rounds =>
            have behind : ∃ sect ∈ rest, ∃ found, Looks files abfd sect found ∧ found.size = 0 := by
              obtain ⟨other, member, found', looks', empty⟩ := stuck
              rcases List.mem_cons.mp member with rfl | behind
              · rw [Looks, looks, Option.some.injEq] at looks'
                rw [← looks', same] at empty
                exact absurd empty here
              · exact ⟨other, behind, found', looks', empty⟩
            rw [place, loadPieces_piece some looks (same ▸ fits), same, Option.map_eq_none_iff]
            exact ih joins.2.2 (fun other member => nonzero other (List.mem_cons_of_mem sect member))
              (fun other member => either other (List.mem_cons_of_mem sect member)) behind next left
              rounds (piece + 1)
      · rw [place]
        exact loadPieces_stuck some looks empty number rounds piece

end Pieces

/-! ## The whole set -/

section Memory

variable {files : Bfd → List Asection} {abfd : Bfd} {span : Span} {group : List Section}
  {rounds number : Nat}

theorem forall₂_index {α β : Type} {r : α → β → Prop} {xs : List α} {ys : List β} {y : β}
    (each : List.Forall₂ r xs ys) (member : y ∈ ys) :
    ∃ (index : Nat) (x : α), xs[index]? = some x ∧ r x y := by
  induction each with
  | nil => cases member
  | cons here _ ih =>
      rcases List.mem_cons.mp member with rfl | behind
      · exact ⟨0, _, rfl, here⟩
      · obtain ⟨index, x, place, related⟩ := ih behind
        exact ⟨index + 1, x, place, related⟩

theorem span_of_section {sect : Section} (member : sect ∈ collect files) :
    ∃ (index : Nat) (span : Span) (group : List Section),
      (spans (collect files))[index]? = some span ∧ Grouped span group ∧ sect ∈ group ∧
      group.Sublist (collect files) := by
  obtain ⟨groups, flat, each⟩ := spans_grouped files
  rw [← flat] at member
  obtain ⟨group, inside, here⟩ := List.mem_flatten.mp member
  obtain ⟨index, span, place, grouped⟩ := forall₂_index each inside
  exact ⟨index, span, group, place, grouped, here, flat ▸ List.sublist_flatten_of_mem inside⟩

theorem group_of_span (member : span ∈ spans (collect files)) :
    ∃ group, Grouped span group ∧ group.Sublist (collect files) := by
  obtain ⟨groups, flat, each⟩ := spans_grouped files
  obtain ⟨index, group, place, grouped⟩ := forall₂_index each.flip member
  exact ⟨group, grouped,
    flat ▸ List.sublist_flatten_of_mem (List.mem_of_getElem? place)⟩

/-- The size of a span is that of its group. -/
theorem Grouped.size (grouped : Grouped span group)
    (within : ∀ sect ∈ group, sect ∈ collect files) :
    ∃ stop, Joins span.abfd span.start.toNat group stop ∧
      (span.stop - span.start).toNat = stop - span.start.toNat := by
  obtain ⟨nonempty, stop, inside, joins, stopEq⟩ := grouped
  refine ⟨stop, joins, ?_⟩
  obtain ⟨first, rest, rfl⟩ := List.exists_cons_of_ne_nil nonempty
  have proper := collect_proper files first (within first List.mem_cons_self)
  have place := joins.2.1
  have start := size_positive proper.1
  have size := size_positive proper.2.1
  have tail := joins.2.2.le
  have bound := span.start.toNat_lt
  rw [UInt64.toNat_sub, stopEq]
  simp only [Section.stop] at *
  omega

/-- What a lookup for a section of the set finds. -/
theorem looks_cases (apart : Apart files) {sect : Section} (member : sect ∈ collect files) :
    ∃ own, Accepted files sect.abfd own ∧ sect = own.entry sect.abfd ∧
      ∃ found, Looks files sect.abfd sect found ∧ (found = own ∨ found.size = 0) := by
  obtain ⟨own, inside, entry, -⟩ := mem_collect member
  have accepted : Accepted files sect.abfd own := ⟨inside, entry ▸ member⟩
  obtain ⟨found, first, either⟩ := lookup_cases apart accepted
  refine ⟨own, accepted, entry, found, ?_, either⟩
  rw [Looks, entry]
  exact first

/-- A span is loaded if its sections are found again. -/
theorem loadSection_group (grouped : Grouped span group) (part : group.Sublist (collect files))
    (again : ∀ sect ∈ group, ∃ found, Looks files sect.abfd sect found ∧ found.size = sect.size)
    (enough : (collect files).length < rounds) (number : Nat) :
    ∃ bytes, loadSection (.ofFiles files) rounds number span.chunk =
        some ({ span.chunk with addr := some bytes }, false) ∧
      ∀ sect ∈ group, Holds files span.abfd span.start.toNat bytes sect := by
  have within : ∀ sect ∈ group, sect ∈ collect files := fun _ member => part.mem member
  obtain ⟨stop, joins, sizeEq⟩ := grouped.size within
  obtain ⟨bytes, loaded, holds⟩ := loadPieces_group joins
    (fun sect member => (collect_proper files sect (within sect member)).2.1)
    (fun sect member => (joins.bounds member).1 ▸ again sect member)
    (Nat.mod_eq_of_lt span.start.toNat_lt).symm sizeEq (Nat.lt_of_le_of_lt part.length_le enough)
    number 0
  refine ⟨bytes, ?_, holds⟩
  have alloc : (Loader.ofFiles files).alloc number = true := rfl
  rw [loadSection, if_pos alloc]
  change Option.map _ (loadPieces _ span.abfd number rounds 0 span.start (span.stop - span.start)) = _
  rw [loaded]
  rfl

/-- Otherwise its load never ends. -/
theorem loadSection_endless (apart : Apart files) (grouped : Grouped span group)
    (part : group.Sublist (collect files))
    (stuck : ∃ sect ∈ group, ∃ found, Looks files sect.abfd sect found ∧ found.size = 0)
    (number : Nat) : loadSection (.ofFiles files) rounds number span.chunk = none := by
  have within : ∀ sect ∈ group, sect ∈ collect files := fun _ member => part.mem member
  obtain ⟨stop, joins, sizeEq⟩ := grouped.size within
  have alloc : (Loader.ofFiles files).alloc number = true := rfl
  rw [loadSection, if_pos alloc, Option.map_eq_none_iff]
  refine loadPieces_endless joins
    (fun sect member => (collect_proper files sect (within sect member)).2.1) ?_ ?_
    (Nat.mod_eq_of_lt span.start.toNat_lt).symm sizeEq number rounds 0
  · intro sect member
    obtain ⟨own, -, entry, found, looks, either⟩ := looks_cases apart (within sect member)
    refine ⟨found, (joins.bounds member).1 ▸ looks, ?_⟩
    rcases either with same | empty
    · exact .inl (by rw [same, entry]; rfl)
    · exact .inr empty
  · obtain ⟨sect, member, found, looks, empty⟩ := stuck
    exact ⟨sect, member, found, (joins.bounds member).1 ▸ looks, empty⟩

/-- A run that ends has found every accepted section again. -/
theorem unshadowed_of_ends (apart : Apart files) {failed : Bool} {after : Coredump}
    (ends : Coredump.coalesceAndLoadSections { sections := collect files, failed }
      (.ofFiles files) rounds = some after) {sect : Asection}
    (accepted : Accepted files abfd sect) : Unshadowed files abfd sect := by
  rw [coalesce_eq, Option.map_eq_some_iff] at ends
  obtain ⟨loads, done, -⟩ := ends
  rw [← lookup_iff apart accepted]
  obtain ⟨found, first, same | empty⟩ := lookup_cases apart accepted
  · rw [first, same]
  · obtain ⟨index, span, group, place, grouped, here, part⟩ := span_of_section accepted.2
    obtain ⟨loaded, -, load⟩ := loadAll_getElem? done place
    have endless := @loadSection_endless files span group rounds apart grouped part
      ⟨_, here, found, first, empty⟩ (0 + index)
    rw [load] at endless
    cases endless

/-- The loaded memory of a span holds each byte of the sections in its group. -/
theorem Grouped.byte {sect : Asection} {bytes : List UInt8} (grouped : Grouped span group)
    (part : group.Sublist (collect files)) (here : sect.entry abfd ∈ group)
    (looks : Looks files abfd (sect.entry abfd) sect)
    (holds : ∀ other ∈ group, Holds files span.abfd span.start.toNat bytes other)
    {address : Nat} (low : sect.vma.toNat ≤ address) (high : address < sect.stop) :
    span.abfd = abfd ∧ span.chunk.vma.toNat ≤ address ∧ address < span.chunk.stop ∧
      ∃ byte, bytes[address - span.chunk.vma.toNat]? = some byte ∧
        sect.contents[address - sect.vma.toNat]? = some byte := by
  obtain ⟨stop, joins, size⟩ := grouped.size fun _ member => part.mem member
  obtain ⟨file, front, back⟩ := joins.bounds here
  change span.start.toNat ≤ sect.vma.toNat at front
  change sect.stop ≤ stop at back
  change abfd = span.abfd at file
  subst file
  have offset : address - sect.vma.toNat < sect.size.toNat := by
    rw [Asection.stop] at high
    omega
  have inContents : ∃ byte, sect.contents[address - sect.vma.toNat]? = some byte :=
    ⟨_, List.getElem?_eq_getElem (sect.whole ▸ offset)⟩
  obtain ⟨byte, byteEq⟩ := inContents
  have held : bytes[sect.vma.toNat - span.start.toNat + (address - sect.vma.toNat)]? =
      sect.contents[address - sect.vma.toNat]? := holds _ here sect looks _ offset
  have place : address - span.start.toNat =
      sect.vma.toNat - span.start.toNat + (address - sect.vma.toNat) := by omega
  refine ⟨rfl, Nat.le_trans front low, ?_, byte, ?_, byteEq⟩
  · change address < span.start.toNat + (span.stop - span.start).toNat
    rw [size]
    omega
  · change bytes[address - span.start.toNat]? = _
    rw [place, held, byteEq]

/-- The run ends with every byte of every accepted section in memory, exactly
if no accepted section stands behind an empty one of the same `vma` in its
file. -/
theorem memory_preserved_iff (apart : Apart files) :
    (∃ rounds after,
      Coredump.coalesceAndLoadSections { sections := collect files, failed := false }
        (.ofFiles files) rounds = some after ∧
      ∀ abfd sect, Accepted files abfd sect →
        ∀ address, sect.vma.toNat ≤ address → address < sect.stop →
          ∃ loaded ∈ after.sections, loaded.abfd = abfd ∧ loaded.vma.toNat ≤ address ∧
            address < loaded.stop ∧ ∃ bytes byte, loaded.addr = some bytes ∧
              bytes[address - loaded.vma.toNat]? = some byte ∧
              sect.contents[address - sect.vma.toNat]? = some byte) ↔
    ∀ abfd sect, Accepted files abfd sect → Unshadowed files abfd sect := by
  constructor
  · intro ⟨rounds, after, ends, _⟩ abfd sect accepted
    exact unshadowed_of_ends apart ends accepted
  · intro unshadowed
    have again : ∀ sect ∈ collect files, ∃ found, Looks files sect.abfd sect found ∧
        found.size = sect.size := by
      intro sect member
      obtain ⟨own, accepted, entry, -⟩ := looks_cases apart member
      refine ⟨own, ?_, by rw [entry]; rfl⟩
      rw [Looks, entry]
      exact (lookup_iff apart accepted).mpr (unshadowed _ own accepted)
    have loadGroup {span : Span} {group : List Section} (grouped : Grouped span group)
        (part : group.Sublist (collect files)) := loadSection_group grouped part
      (fun sect member => again sect (part.mem member)) (Nat.lt_succ_self _)
    obtain ⟨loads, done⟩ := @loadAll_exists (.ofFiles files) ((collect files).length + 1)
      (spans (collect files)) (fun span member number => by
        obtain ⟨group, grouped, part⟩ := group_of_span member
        obtain ⟨bytes, load, -⟩ := loadGroup grouped part number
        exact ⟨_, load⟩) 0
    refine ⟨(collect files).length + 1, _, by rw [coalesce_eq, done]; rfl, ?_⟩
    intro abfd sect accepted address low high
    obtain ⟨index, span, group, place, grouped, here, part⟩ := span_of_section accepted.2
    obtain ⟨loaded, kept, load⟩ := loadAll_getElem? done place
    obtain ⟨bytes, load', holds⟩ := loadGroup grouped part (0 + index)
    rw [load', Option.some.injEq] at load
    obtain ⟨file, front, back, byte, inMemory, inFile⟩ := grouped.byte part here
      ((lookup_iff apart accepted).mpr (unshadowed abfd sect accepted)) holds low high
    refine ⟨loaded.1, List.mem_map_of_mem (List.mem_of_getElem? kept), ?_⟩
    rw [← load]
    exact ⟨file, front, back, bytes, byte, rfl, inMemory, inFile⟩

end Memory

theorem oneByte_whole : [(0x41 : UInt8)].length = (1 : UInt64).toNat := rfl

theorem oneByte_inside : (0x1000 : UInt64).toNat + (1 : UInt64).toNat ≤ 2 ^ 64 := by decide

/-- One byte under an address, in a file that may have an empty section there. -/
def oneByte (front : List Asection) : Bfd → List Asection
  | .core =>
      front ++
        [{ vma := 0x1000, size := 1, contents := [0x41], whole := oneByte_whole,
           inside := oneByte_inside }]
  | .exec => []

theorem oneByte_apart {front : List Asection} (empty : ∀ sect ∈ front, sect.size = 0) :
    Apart (oneByte front) := by
  intro abfd
  cases abfd with
  | core =>
      rw [oneByte, List.pairwise_append]
      refine ⟨List.pairwise_of_forall_mem_list ?_, List.pairwise_singleton _ _, ?_⟩
      · intro first member _ _
        exact .inl (empty first member)
      · intro first member _ _
        exact .inl (empty first member)
  | exec => exact List.Pairwise.nil

theorem one_byte_preserved :
    ∃ rounds after,
      Coredump.coalesceAndLoadSections { sections := collect (oneByte []), failed := false }
        (.ofFiles (oneByte [])) rounds = some after ∧
      ∃ loaded ∈ after.sections, ∃ bytes, loaded.addr = some bytes ∧
        bytes[0x1000 - loaded.vma.toNat]? = some 0x41 := by
  have apart : Apart (oneByte []) := oneByte_apart (by simp)
  have unshadowed : ∀ abfd sect, Accepted (oneByte []) abfd sect →
      Unshadowed (oneByte []) abfd sect := by
    intro abfd sect accepted front back whole earlier before
    cases abfd with
    | core =>
        have length := congrArg List.length whole
        rw [List.length_append, List.length_cons] at length
        have none : front.length = 0 := by
          change 1 = _ at length
          omega
        rw [List.length_eq_zero_iff.mp none] at before
        cases before
    | exec => cases accepted.1
  obtain ⟨rounds, after, ends, covered⟩ := (memory_preserved_iff apart).mpr unshadowed
  obtain ⟨loaded, inside, -, -, -, bytes, byte, addr, held, same⟩ :=
    covered .core _ ⟨List.mem_cons_self, by decide⟩ 0x1000 (by decide) (by decide)
  cases same
  exact ⟨rounds, after, ends, loaded, inside, bytes, addr, held⟩

/-- An empty section in front of the other one. -/
def emptyBefore : List Asection :=
  [{ vma := 0x1000, size := 0, contents := [], whole := rfl, inside := by decide }]

theorem empty_section_endless :
    ¬ ∃ rounds after,
      Coredump.coalesceAndLoadSections { sections := collect (oneByte emptyBefore), failed := false }
        (.ofFiles (oneByte emptyBefore)) rounds = some after := by
  intro ⟨rounds, after, ends⟩
  have apart : Apart (oneByte emptyBefore) := oneByte_apart (by simp [emptyBefore])
  have accepted : Accepted (oneByte emptyBefore) .core _ :=
    ⟨List.mem_append_right emptyBefore List.mem_cons_self, by decide⟩
  exact unshadowed_of_ends apart ends accepted emptyBefore [] rfl _ List.mem_cons_self rfl rfl

end Hogl.Recover
