import Hogl.Data.Overrides
import Hogl.Area.Area

namespace Hogl

open Hogl.Data

/-! # Masks

`src/mask.cc`.  `std::regex` is a parameter: which patterns it accepts and
what they match.  A mask is its list of elements, and `none` stands for the
exception that an invalid pattern throws. -/

structure Regex where
  valid : List UInt8 → Bool
  /-- `std::regex_match` of a whole text. -/
  isMatch : (pattern text : List UInt8) → Bool

/-- `mask::data`; a regex is kept as its pattern. -/
structure MaskData where
  str : List UInt8
  area : List UInt8
  sect : List UInt8
  on : Bool
deriving Repr, DecidableEq

abbrev Mask := List MaskData

namespace Mask

def bang : UInt8 := 0x21

def colon : UInt8 := 0x3a

/-- An empty part of a mask string means everything. -/
def orAny (part : List UInt8) : List UInt8 := if part.isEmpty then ascii ".*" else part

/-- The area and the section part of what follows the mark. -/
def parts (body : List UInt8) : List UInt8 × List UInt8 :=
  match body.findIdx? (· == colon) with
  | none => (ascii ".*", body)
  | some aend => (body.take aend, body.drop (aend + 1))

def add (regex : Regex) (mask : Mask) (str : List UInt8) : Option Mask :=
  let on := str.head? != some bang
  let body := if on then str else str.drop 1
  let areg := orAny (parts body).1
  let sreg := orAny (parts body).2
  if regex.valid areg && regex.valid sreg then some (mask ++ [⟨str, areg, sreg, on⟩]) else none

/-- Strings added one after another. -/
def addAll (regex : Regex) : Mask → List (List UInt8) → Option Mask
  | mask, [] => some mask
  | mask, str :: strs => do
      let mask ← mask.add regex str
      addAll regex mask strs

/-- One turn of the loop in `__apply`. -/
def applySection (regex : Regex) (pattern : List UInt8) (on : Bool) (area : MaskedArea)
    (index : Nat) : MaskedArea :=
  if regex.isMatch pattern (area.sectionName index) then area.set index on else area

/-- `__apply`. -/
def applySections (regex : Regex) (pattern : List UInt8) (on : Bool) (area : MaskedArea) :
    MaskedArea :=
  (List.range area.size).foldl (applySection regex pattern on) area

/-- One turn of the loop in `apply`. -/
def applyElement (regex : Regex) (area : MaskedArea) (data : MaskData) : MaskedArea :=
  if regex.isMatch data.area area.name then applySections regex data.sect data.on area else area

def apply (regex : Regex) (mask : Mask) (area : MaskedArea) : MaskedArea :=
  mask.foldl (applyElement regex) area

/-! ## Mask strings -/

/-- A string of the form `[!]area:section` or `[!]section`, taken apart. -/
structure Element where
  off : Bool
  area : Option (List UInt8)
  sect : List UInt8
  /-- The first colon is the one behind the area. -/
  split : colon ∉ area.getD sect
  /-- A first `!` is the mark. -/
  marked : off = false → (match area with
    | none => sect
    | some area => area ++ colon :: sect).head? ≠ some bang

namespace Element

variable (element : Element)

/-- The string behind the mark. -/
def body : List UInt8 :=
  match element.area with
  | none => element.sect
  | some area => area ++ colon :: element.sect

def text : List UInt8 := if element.off then bang :: element.body else element.body

def areaRegex : List UInt8 := orAny (element.area.getD [])

def sectRegex : List UInt8 := orAny element.sect

def data : MaskData :=
  { str := element.text, area := element.areaRegex, sect := element.sectRegex, on := !element.off }

def Valid (regex : Regex) : Prop :=
  regex.valid element.areaRegex = true ∧ regex.valid element.sectRegex = true

/-- The element decides about the section of this name in the area of that. -/
def covers (regex : Regex) (area : Area) (sect : Nat) : Bool :=
  regex.isMatch element.areaRegex area.name &&
    regex.isMatch element.sectRegex (area.sectionName sect)

theorem findIdx?_colon {part : List UInt8} (split : colon ∉ part) :
    part.findIdx? (· == colon) = none := by
  rw [List.findIdx?_eq_none_iff]
  intro byte member
  rw [beq_eq_false_iff_ne]
  rintro rfl
  exact split member

theorem parts_body : parts element.body = (element.area.getD (ascii ".*"), element.sect) := by
  have split := element.split
  rw [body, parts]
  cases form : element.area with
  | none =>
      rw [form, Option.getD_none] at split
      simp only [findIdx?_colon split, Option.getD_none]
  | some area =>
      rw [form, Option.getD_some] at split
      have found : (area ++ colon :: element.sect).findIdx? (· == colon) = some area.length := by
        rw [List.findIdx?_append, findIdx?_colon split]
        simp [List.findIdx?_cons]
      simp [found]

theorem text_mark : (element.text.head? != some bang) = !element.off := by
  have marked := element.marked
  rw [text]
  cases off : element.off with
  | true => simp
  | false => simpa [body] using marked off

theorem text_body : (if !element.off then element.text else element.text.drop 1) = element.body := by
  rw [text]
  cases element.off <;> rfl

end Element

theorem add_text {regex : Regex} {element : Element} (valid : element.Valid regex) (mask : Mask) :
    mask.add regex element.text = some (mask ++ [element.data]) := by
  have accepted : (regex.valid element.areaRegex && regex.valid element.sectRegex) = true := by
    rw [valid.1, valid.2]
    rfl
  have areaRegex : orAny (element.area.getD (ascii ".*")) = element.areaRegex := by
    rw [Element.areaRegex]
    cases element.area <;> rfl
  have sectRegex : orAny element.sect = element.sectRegex := rfl
  simp only [add, element.text_mark, element.text_body, element.parts_body, areaRegex, sectRegex,
    accepted, if_true]
  rfl

theorem addAll_text {regex : Regex} {elements : List Element}
    (valid : ∀ element ∈ elements, element.Valid regex) (mask : Mask) :
    addAll regex mask (elements.map Element.text) = some (mask ++ elements.map Element.data) := by
  induction elements generalizing mask with
  | nil => rw [List.map_nil, List.map_nil, List.append_nil]; rfl
  | cons element elements ih =>
      rw [List.map_cons, addAll, add_text (valid element List.mem_cons_self)]
      change addAll regex (mask ++ [element.data]) _ = _
      rw [ih fun other member => valid other (List.mem_cons_of_mem _ member), List.map_cons,
        List.append_assoc, List.singleton_append]

/-- Every string is a mask string. -/
theorem Element.exists_text (str : List UInt8) : ∃ element : Element, element.text = str := by
  have taken (off : Bool) (body : List UInt8) (marked : off = false → body.head? ≠ some bang) :
      ∃ element : Element, element.off = off ∧ element.body = body := by
    by_cases split : colon ∈ body
    · obtain ⟨area, sect, rfl, first⟩ := List.eq_append_cons_of_mem split
      exact ⟨⟨off, some area, sect, first, marked⟩, rfl, rfl⟩
    · exact ⟨⟨off, none, body, split, marked⟩, rfl, rfl⟩
  by_cases mark : str.head? = some bang
  · obtain ⟨rest, rfl⟩ := List.head?_eq_some_iff.mp mark
    obtain ⟨element, off, body⟩ := taken true rest (by simp)
    exact ⟨element, by rw [text, off, body]; rfl⟩
  · obtain ⟨element, off, body⟩ := taken false str fun _ => mark
    exact ⟨element, by rw [text, off, body]; rfl⟩

/-! ## Applying a mask -/

section

variable (regex : Regex) (pattern : List UInt8) (on : Bool)

theorem applySection_same (area : MaskedArea) (index : Nat) :
    MaskedArea.Same area (applySection regex pattern on area index) := by
  rw [applySection]
  split
  · exact .set area index on
  · exact .refl area

theorem applySection_test {area : MaskedArea} {index : Nat} (inside : index < area.size)
    (sect : Nat) :
    (applySection regex pattern on area index).test sect =
      if sect = index ∧ regex.isMatch pattern (area.sectionName sect) then on
      else area.test sect := by
  rw [applySection]
  by_cases same : sect = index
  · subst same
    split
    · rename_i matched
      simp [MaskedArea.test_set inside, matched]
    · rename_i unmatched
      simp [unmatched]
  · split
    · simp [MaskedArea.test_set inside, same]
    · simp [same]

/-- The loop up to some section has decided about the sections before it. -/
theorem applySections_upto (area : MaskedArea) {count : Nat} (inside : count ≤ area.size) :
    MaskedArea.Same area ((List.range count).foldl (applySection regex pattern on) area) ∧
    ∀ sect, ((List.range count).foldl (applySection regex pattern on) area).test sect =
      if sect < count ∧ regex.isMatch pattern (area.sectionName sect) then on
      else area.test sect := by
  induction count with
  | zero => exact ⟨.refl area, fun sect => by simp⟩
  | succ count ih =>
      obtain ⟨same, tests⟩ := ih (Nat.le_of_succ_le inside)
      rw [List.range_succ, List.foldl_append, List.foldl_cons, List.foldl_nil]
      refine ⟨same.trans (applySection_same regex pattern on _ count), fun sect => ?_⟩
      rw [applySection_test _ _ _ (by rw [same.size_eq]; exact inside), tests, same.toArea]
      by_cases matched : regex.isMatch pattern (area.sectionName sect) = true
      · simp only [matched, and_true]
        by_cases last : sect = count
        · simp [last]
        · have bound : sect < count ↔ sect < count + 1 := by omega
          simp [last, bound]
      · simp [matched]

theorem applySections_spec (area : MaskedArea) :
    MaskedArea.Same area (applySections regex pattern on area) ∧
    ∀ sect, (applySections regex pattern on area).test sect =
      if sect < area.size ∧ regex.isMatch pattern (area.sectionName sect) then on
      else area.test sect :=
  applySections_upto regex pattern on area (Nat.le_refl area.size)

end

/-- An element of a mask decides about a section of an area. -/
def decides (regex : Regex) (area : MaskedArea) (data : MaskData) (sect : Nat) : Bool :=
  regex.isMatch data.area area.name &&
    (decide (sect < area.size) && regex.isMatch data.sect (area.sectionName sect))

theorem decides_same {regex : Regex} {before after : MaskedArea}
    (same : MaskedArea.Same before after) : decides regex after = decides regex before := by
  funext data sect
  rw [decides, decides, same.toArea, same.size_eq]

theorem applyElement_spec (regex : Regex) (area : MaskedArea) (data : MaskData) :
    MaskedArea.Same area (applyElement regex area data) ∧
    ∀ sect, (applyElement regex area data).test sect =
      if decides regex area data sect then data.on else area.test sect := by
  rw [applyElement]
  split
  · rename_i matched
    obtain ⟨same, tests⟩ := applySections_spec regex data.sect data.on area
    refine ⟨same, fun sect => ?_⟩
    simp [tests, decides, matched]
  · rename_i unmatched
    exact ⟨.refl area, fun sect => by simp [decides, unmatched]⟩

/-- A mask overrides the section bits of an area, element by element. -/
theorem apply_spec (regex : Regex) (mask : Mask) (area : MaskedArea) :
    MaskedArea.Same area (mask.apply regex area) ∧
    (mask.apply regex area).test = override (decides regex area) MaskData.on mask area.test := by
  induction mask generalizing area with
  | nil => exact ⟨.refl area, rfl⟩
  | cons data mask ih =>
      obtain ⟨firstSame, firstTests⟩ := applyElement_spec regex area data
      obtain ⟨restSame, restTests⟩ := ih (applyElement regex area data)
      refine ⟨firstSame.trans restSame, ?_⟩
      change (apply regex mask (applyElement regex area data)).test = _
      rw [restTests, decides_same firstSame, funext firstTests]
      rfl

theorem apply_append (regex : Regex) (first second : Mask) (area : MaskedArea) :
    (first ++ second).apply regex area = second.apply regex (first.apply regex area) :=
  List.foldl_append

theorem apply_apply (regex : Regex) (mask : Mask) (area : MaskedArea) :
    mask.apply regex (mask.apply regex area) = mask.apply regex area := by
  obtain ⟨same, tests⟩ := apply_spec regex mask area
  obtain ⟨againSame, againTests⟩ := apply_spec regex mask (mask.apply regex area)
  apply againSame.eq_of_test
  intro sect
  rw [againTests, decides_same same, tests, override_idem]

/-- The last of the strings that covers a section. -/
def lastElement (regex : Regex) (area : Area) (elements : List Element) (sect : Nat) :
    Option Element :=
  lastCovering (fun element => element.covers regex area) elements sect

theorem decides_data (regex : Regex) (area : MaskedArea) {sect : Nat} (valid : sect < area.size)
    (elements : List Element) :
    ((lastCovering (decides regex area) (elements.map Element.data) sect).map MaskData.on) =
      (lastElement regex area.toArea elements sect).map fun element => !element.off := by
  rw [lastElement, lastCovering, lastCovering, ← List.map_reverse, List.find?_map]
  have covers : ((fun data => decides regex area data sect) ∘ Element.data) =
      fun element => element.covers regex area.toArea sect := by
    funext element
    simp [decides, Element.covers, Element.data, valid]
  rw [covers, Option.map_map]
  rfl

theorem last_matching_element_wins (regex : Regex) (elements : List Element)
    (valid : ∀ element ∈ elements, element.Valid regex) (area : MaskedArea) :
    ∃ mask, addAll regex [] (elements.map Element.text) = some mask ∧
      (∀ sect < area.size, (mask.apply regex area).test sect =
        match lastElement regex area.toArea elements sect with
        | some element => !element.off
        | none => area.test sect) ∧
      (∀ sect, area.size ≤ sect → (mask.apply regex area).test sect = area.test sect) ∧
      MaskedArea.Same area (mask.apply regex area) ∧
      mask.apply regex (mask.apply regex area) = mask.apply regex area ∧
      ∀ (others : List Element), (∀ element ∈ others, element.Valid regex) →
        ∃ second both, addAll regex [] (others.map Element.text) = some second ∧
          addAll regex [] ((elements ++ others).map Element.text) = some both ∧
          second.apply regex (mask.apply regex area) = both.apply regex area := by
  have built := addAll_text valid []
  obtain ⟨same, tests⟩ := apply_spec regex (elements.map Element.data) area
  refine ⟨_, built, ?_, ?_, same, apply_apply regex _ area, ?_⟩
  · intro sect inside
    rw [List.nil_append, tests, override_eq_last, decides_data regex area inside]
    cases lastElement regex area.toArea elements sect <;> rfl
  · intro sect outside
    have uncovered : lastCovering (decides regex area) (elements.map Element.data) sect = none := by
      rw [lastCovering, List.find?_eq_none]
      intro data _
      simp [decides, Nat.not_lt.mpr outside]
    rw [List.nil_append, tests, override_eq_last, uncovered]
    rfl
  · intro others othersValid
    have all : ∀ element ∈ elements ++ others, element.Valid regex := by
      intro element member
      exact (List.mem_append.mp member).elim (valid element) (othersValid element)
    refine ⟨_, _, addAll_text othersValid [], addAll_text all [], ?_⟩
    rw [List.map_append, List.nil_append, List.nil_append, List.nil_append, apply_append]

/-- A regex library in which only `.*` has a meaning of its own. -/
def wildcards : Regex where
  valid _ := true
  isMatch pattern text := pattern == ascii ".*" || pattern == text

/-- Everything off but `INFO`, on an area with two sections. -/
theorem last_matching_element_wins_info :
    let off : Element := ⟨true, some (ascii ".*"), ascii ".*", by decide, by decide⟩
    let info : Element := ⟨false, none, ascii "INFO", by decide, by decide⟩
    let area : MaskedArea := ⟨⟨ascii "DEF", [ascii "INFO", ascii "DEBUG"]⟩, ⟨2, [3], by decide⟩, rfl⟩
    [off, info].map Element.text = [ascii "!.*:.*", ascii "INFO"] ∧
    ∃ mask, addAll wildcards [] ([off, info].map Element.text) = some mask ∧
      (mask.apply wildcards area).test 0 = true ∧ (mask.apply wildcards area).test 1 = false := by
  intro off info area
  obtain ⟨mask, built, bits, -⟩ := last_matching_element_wins wildcards [off, info]
    (fun _ _ => ⟨rfl, rfl⟩) area
  exact ⟨by decide, mask, built, (bits 0 (by decide)).trans (by decide),
    (bits 1 (by decide)).trans (by decide)⟩

end Mask

end Hogl
