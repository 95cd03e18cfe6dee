import Mathlib.Algebra.Group.Nat.Defs
import Mathlib.Data.List.Pairwise

namespace Hogl.Recover

/-! # Memory of a core dump

The sections of `tools/coredump.cc`.  A section set is a list ordered by `vma`.
A pointer into loaded memory names its section and the offset in it, so that
blocks of the recovering process are never taken for each other. -/

/-- The two files of a recovery. -/
inductive Bfd where
  | core
  | exec
deriving Repr, DecidableEq

/-- `coredump::section`; `addr` holds the bytes loaded so far. -/
structure Section where
  vma : UInt64
  size : UInt64
  addr : Option (List UInt8)
  abfd : Bfd
deriving Repr, DecidableEq

/-- The first address behind a section, without a carry. -/
def Section.stop (sect : Section) : Nat := sect.vma.toNat + sect.size.toNat

/-- `addr + offset` for the `addr` of a section. -/
structure HostPtr where
  sect : Section
  offset : UInt64
deriving Repr, DecidableEq

/-- `coredump::remap`, with no result for a null pointer. -/
def remap (sections : List Section) (ptr n : UInt64) : Option HostPtr :=
  (sections.find? fun sect => sect.vma ≤ ptr ∧ ptr + n ≤ sect.vma + sect.size).map
    fun sect => { sect, offset := ptr - sect.vma }

/-! ## Which address a result stands for -/

/-- The sections that a core dump is left with: each has bytes, none reaches
over the end of the address space, and they lie behind one another. -/
structure CoreImage where
  sections : List Section
  positive : ∀ sect ∈ sections, 0 < sect.size.toNat
  inside : ∀ sect ∈ sections, sect.stop ≤ 2 ^ 64
  apart : sections.Pairwise fun first second => first.stop ≤ second.vma.toNat

/-- The section holds the byte at `ptr` and all `n` bytes from there. -/
def Section.Covers (sect : Section) (ptr n : UInt64) : Prop :=
  sect.vma.toNat ≤ ptr.toNat ∧ ptr.toNat < sect.stop ∧ ptr.toNat + n.toNat ≤ sect.stop

section Remap

variable {image : CoreImage} {sect other : Section} {ptr n : UInt64}

/-- Two sections that hold one byte are the same. -/
theorem CoreImage.covers_unique (image : CoreImage) (member : sect ∈ image.sections)
    (member' : other ∈ image.sections) (covers : sect.Covers ptr n) (covers' : other.Covers ptr n) :
    sect = other := by
  by_contra different
  have either : sect.stop ≤ other.vma.toNat ∨ other.stop ≤ sect.vma.toNat := by
    have symmetric : Std.Symm fun first second : Section =>
        first.stop ≤ second.vma.toNat ∨ second.stop ≤ first.vma.toNat := ⟨fun _ _ => Or.symm⟩
    exact (image.apart.imp fun before => Or.inl before :
      image.sections.Pairwise fun first second =>
        first.stop ≤ second.vma.toNat ∨ second.stop ≤ first.vma.toNat).forall member member' different
  obtain ⟨low, high, -⟩ := covers
  obtain ⟨low', high', -⟩ := covers'
  omega

/-- The comparisons of `remap` on a section, with their carries. -/
def Section.Passes (sect : Section) (ptr n : UInt64) : Prop :=
  sect.vma.toNat ≤ ptr.toNat ∧ (ptr.toNat + n.toNat) % 2 ^ 64 ≤ sect.stop % 2 ^ 64

theorem passes_iff (sect : Section) (ptr n : UInt64) :
    (sect.vma ≤ ptr ∧ ptr + n ≤ sect.vma + sect.size) ↔ sect.Passes ptr n := by
  rw [UInt64.le_iff_toNat_le, UInt64.le_iff_toNat_le, UInt64.toNat_add, UInt64.toNat_add]
  rfl

theorem remap_none (nowhere : ∀ sect ∈ image.sections, ¬ sect.Passes ptr n) :
    remap image.sections ptr n = none := by
  rw [remap, Option.map_eq_none_iff, List.find?_eq_none]
  intro sect member passes
  exact nowhere sect member ((passes_iff sect ptr n).mp (of_decide_eq_true passes))

theorem remap_ne_none (member : sect ∈ image.sections) (passes : sect.Passes ptr n) :
    remap image.sections ptr n ≠ none := by
  intro none
  rw [remap, Option.map_eq_none_iff, List.find?_eq_none] at none
  exact none sect member (decide_eq_true ((passes_iff sect ptr n).mpr passes))

theorem remap_some {result : HostPtr} (found : remap image.sections ptr n = some result) :
    result.sect ∈ image.sections ∧ result.sect.Passes ptr n ∧
      result = { sect := result.sect, offset := ptr - result.sect.vma } := by
  rw [remap, Option.map_eq_some_iff] at found
  obtain ⟨sect, first, rfl⟩ := found
  have passes := List.find?_some first
  rw [decide_eq_true_iff, passes_iff] at passes
  exact ⟨List.mem_of_find?_eq_some first, passes, rfl⟩

/-- The other sections that pass lie behind the first one. -/
theorem remap_first {result : HostPtr} (found : remap image.sections ptr n = some result)
    (member : other ∈ image.sections) (passes : other.Passes ptr n) :
    result.sect = other ∨ result.sect.stop ≤ other.vma.toNat := by
  rw [remap, Option.map_eq_some_iff] at found
  obtain ⟨sect, first, rfl⟩ := found
  rw [List.find?_eq_some_iff_append] at first
  obtain ⟨-, front, back, whole, skipped⟩ := first
  have apart := image.apart
  rw [whole, List.mem_append, List.mem_cons] at member
  rw [whole, List.pairwise_append, List.pairwise_cons] at apart
  rcases member with before | here | behind
  · have skip := skipped other before
    rw [Bool.not_eq_true', decide_eq_false_iff_not, passes_iff] at skip
    exact absurd passes skip
  · exact .inl here.symm
  · exact .inr (apart.2.1.1 other behind)

/-- Remapping follows the sections that hold the bytes exactly if its
comparisons tell these sections from the others. -/
theorem remap_exact_iff (image : CoreImage) (ptr n : UInt64) :
    ((∀ sect ∈ image.sections, sect.Covers ptr n →
        remap image.sections ptr n = some { sect, offset := ptr - sect.vma }) ∧
      ((∀ sect ∈ image.sections, ¬ sect.Covers ptr n) → remap image.sections ptr n = none)) ↔
    ∀ sect ∈ image.sections, sect.Passes ptr n ↔ sect.Covers ptr n := by
  constructor
  · intro ⟨sound, complete⟩ sect member
    constructor
    · intro passes
      have somewhere : ∃ holder ∈ image.sections, holder.Covers ptr n := by
        by_contra nowhere
        have none := complete fun sect member covers => nowhere ⟨sect, member, covers⟩
        exact remap_ne_none member passes none
      obtain ⟨holder, inside, covers⟩ := somewhere
      rcases remap_first (sound holder inside covers) member passes with same | behind
      · exact same ▸ covers
      · have low := passes.1
        have high := covers.2.1
        dsimp only at behind
        omega
    · intro covers
      exact (remap_some (sound sect member covers)).2.1
  · intro exact
    constructor
    · intro sect member covers
      cases found : remap image.sections ptr n with
      | none => exact absurd found (remap_ne_none member ((exact sect member).mpr covers))
      | some result =>
          obtain ⟨inside, passes, pointer⟩ := remap_some found
          have same := image.covers_unique inside member ((exact _ inside).mp passes) covers
          rw [pointer, same]
    · intro nowhere
      exact remap_none fun sect member passes => nowhere sect member ((exact sect member).mp passes)

/-- The condition under which the carries do no harm. -/
theorem passes_exact_iff (member : sect ∈ image.sections) :
    (sect.Passes ptr n ↔ sect.Covers ptr n) ↔
    if ptr.toNat + n.toNat < 2 ^ 64 then
      (n = 0 → sect.stop ≠ ptr.toNat) ∧ (sect.Covers ptr n → sect.stop < 2 ^ 64)
    else sect.vma.toNat ≤ ptr.toNat → ptr.toNat + n.toNat - 2 ^ 64 ≤ sect.stop % 2 ^ 64 →
      sect.Covers ptr n := by
  have positive := image.positive sect member
  have inside := image.inside sect member
  have size := sect.size.toNat_lt
  have vma := sect.vma.toNat_lt
  have bound := ptr.toNat_lt
  have bound' := n.toNat_lt
  have zero : n = 0 ↔ n.toNat = 0 := by
    rw [← UInt64.toNat_inj]
    rfl
  rw [zero]
  simp only [Section.Passes, Section.Covers, Section.stop] at *
  split
  · rename_i small
    rw [Nat.mod_eq_of_lt small]
    rcases Nat.lt_or_eq_of_le inside with below | last
    · rw [Nat.mod_eq_of_lt below]
      omega
    · rw [last, Nat.mod_self]
      omega
  · rename_i large
    have carried : (ptr.toNat + n.toNat) % 2 ^ 64 = ptr.toNat + n.toNat - 2 ^ 64 := by omega
    rw [carried]
    rcases Nat.lt_or_eq_of_le inside with below | last
    · rw [Nat.mod_eq_of_lt below]
      omega
    · rw [last, Nat.mod_self]
      omega

/-- A result stands for the address `ptr`, and there is one if the bytes were
loaded, exactly under these conditions: without a carry in `ptr + n`, no
section may end at `ptr` if `n` is zero, and the bytes may not lie in a section
that ends with the address space; with a carry, the sections whose end is not
below the carried one must hold the bytes. -/
theorem remap_exact_when (image : CoreImage) (ptr n : UInt64) :
    ((∀ sect ∈ image.sections, sect.Covers ptr n →
        remap image.sections ptr n = some { sect, offset := ptr - sect.vma }) ∧
      ((∀ sect ∈ image.sections, ¬ sect.Covers ptr n) → remap image.sections ptr n = none)) ↔
    ∀ sect ∈ image.sections,
      if ptr.toNat + n.toNat < 2 ^ 64 then
        (n = 0 → sect.stop ≠ ptr.toNat) ∧ (sect.Covers ptr n → sect.stop < 2 ^ 64)
      else sect.vma.toNat ≤ ptr.toNat → ptr.toNat + n.toNat - 2 ^ 64 ≤ sect.stop % 2 ^ 64 →
        sect.Covers ptr n := by
  rw [remap_exact_iff]
  apply forall₂_congr
  intro sect member
  exact passes_exact_iff member

end Remap

/-- The strings `A` and `B` side by side, in sections of their own. -/
def adjacent : CoreImage where
  sections :=
    [{ vma := 0x1000, size := 2, addr := some [0x41, 0], abfd := .core },
      { vma := 0x1002, size := 2, addr := some [0x42, 0], abfd := .core }]
  positive := by decide
  inside := by decide
  apart := by decide

/-- A pointer to the second string becomes one behind the first. -/
theorem adjacent_name_misread :
    adjacent.sections[1].Covers 0x1002 0 ∧
      remap adjacent.sections 0x1002 0 ≠ some { sect := adjacent.sections[1], offset := 0 } ∧
      remap adjacent.sections 0x1002 0 = some { sect := adjacent.sections[0], offset := 2 } :=
  ⟨⟨by decide, by decide, by decide⟩, by decide, by decide⟩

end Hogl.Recover
