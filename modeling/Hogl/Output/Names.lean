import Hogl.Data.Bytes
import Hogl.Data.Decimals
import Hogl.Record.Args

namespace Hogl.Output

open Hogl.Data

/-! # Names of the chunks

`init_name`, `update_name` and `read_link` of `src/output-file.cc`.  `links`
gives the targets of the symbolic links.  The width loop has a result if it
ends within the given number of rounds. -/

/-- What `init_name` makes of a pattern. -/
structure FileName where
  namePref : List UInt8
  nameSufx : List UInt8
  symlink : List UInt8
deriving Repr, DecidableEq

/-- Behind the last character of a string stands a zero. -/
def FileName.split (str : List UInt8) : FileName :=
  match find [0x23] str with
  | some split =>
      let nameSufx := str.drop (split + 1)
      -- the separator is kept once if it stands on both sides
      let kept :=
        if 0 < split ∧ str.getD (split - 1) 0 = str.getD (split + 1) 0 then split - 1 else split
      { namePref := str.take split, nameSufx, symlink := str.take kept ++ nameSufx }
  | none => { namePref := str ++ [0x2e], nameSufx := [], symlink := str }

/-- `while (step < _max_count)`, for so many rounds. -/
def widthLoop (maxCount : UInt32) : Nat → UInt32 → Nat → Option Nat
  | 0, _, _ => none
  | rounds + 1, step, indexWidth =>
      if step < maxCount then widthLoop maxCount rounds (step * 10) (indexWidth + 1)
      else some indexWidth

def FileName.updateName (names : FileName) (indexWidth nameIndex : Nat) : List UInt8 :=
  names.namePref ++ padded indexWidth nameIndex ++ names.nameSufx

/-- `readlink`, with no result for an error; an empty buffer is one. -/
def readlink (links : List UInt8 → Option (List UInt8)) (path : List UInt8) (len : Nat) :
    Option (List UInt8) :=
  if len = 0 then none else (links path).map fun target => target.take len

/-- The size of the buffer in `read_link`. -/
def FileName.linkLen (names : FileName) (indexWidth : Nat) : Nat :=
  (names.symlink.length + indexWidth + 1) % 2 ^ 32

/-- The text in front of the suffix, if the suffix is found. -/
def stripSuffix (nameSufx str : List UInt8) : Option (List UInt8) :=
  if nameSufx = [] then some str else (find nameSufx str).map fun pos => str.take pos

def FileName.readLink (names : FileName) (maxCount : UInt32)
    (links : List UInt8 → Option (List UInt8)) (indexWidth : Nat) : Nat :=
  match readlink links names.symlink (names.linkLen indexWidth) with
  | none => 0
  | some str =>
      if find names.namePref str ≠ some 0 then 0
      else match stripSuffix names.nameSufx (str.drop names.namePref.length) with
        | none => 0
        | some str =>
            let index := (strtoul10 (cstr str)).value
            if index = 2 ^ 64 - 1 then 0
            else if maxCount.toNat ≤ index then 0
            else if maxCount.toNat ≤ index + 1 then 0
            else index + 1

/-- The names of an output file. -/
structure FileNames where
  names : FileName
  indexWidth : Nat
  nameIndex : Nat
  name : List UInt8

def initName (rounds : Nat) (maxCount : UInt32) (links : List UInt8 → Option (List UInt8))
    (filename : List UInt8) : Option FileNames := do
  let names := FileName.split (cstr filename)
  let indexWidth ← widthLoop maxCount rounds 10 1
  let nameIndex := names.readLink maxCount links indexWidth
  return { names, indexWidth, nameIndex, name := names.updateName indexWidth nameIndex }

/-! ## The width of the index -/

section Width

variable {maxCount step : UInt32} {rounds indexWidth width : Nat}

/-- More rounds do not change a result. -/
theorem widthLoop_more (ends : widthLoop maxCount rounds step indexWidth = some width) (more : Nat) :
    widthLoop maxCount (rounds + more) step indexWidth = some width := by
  induction rounds generalizing step indexWidth with
  | zero => cases ends
  | succ rounds ih =>
      rw [Nat.succ_add, widthLoop]
      rw [widthLoop] at ends
      split at ends
      · rename_i below
        rw [if_pos below]
        exact ih ends
      · rename_i done
        rw [if_neg done]
        exact ends

/-- Rounds in which the step stays below the limit. -/
theorem widthLoop_skip {count : Nat} (below : ∀ round < count, step * 10 ^ round < maxCount)
    (rounds indexWidth : Nat) :
    widthLoop maxCount (count + rounds) step indexWidth =
      widthLoop maxCount rounds (step * 10 ^ count) (indexWidth + count) := by
  induction count generalizing step indexWidth with
  | zero => rw [Nat.zero_add, UInt32.pow_zero, UInt32.mul_one, Nat.add_zero]
  | succ count ih =>
      have first := below 0 (Nat.succ_pos count)
      rw [UInt32.pow_zero, UInt32.mul_one] at first
      have rest : ∀ round < count, step * 10 * 10 ^ round < maxCount := by
        intro round inside
        have next := below (round + 1) (Nat.succ_lt_succ inside)
        rwa [UInt32.pow_succ, UInt32.mul_comm _ 10, ← UInt32.mul_assoc] at next
      have power : step * 10 * 10 ^ count = step * 10 ^ (count + 1) := by
        rw [UInt32.pow_succ, UInt32.mul_assoc, UInt32.mul_comm 10]
      rw [Nat.succ_add, widthLoop, if_pos first, ih rest, power, Nat.add_assoc, Nat.add_comm 1 count]

theorem widthLoop_le (ends : widthLoop maxCount rounds step indexWidth = some width) :
    indexWidth ≤ width := by
  induction rounds generalizing step indexWidth with
  | zero => cases ends
  | succ rounds ih =>
      rw [widthLoop] at ends
      split at ends
      · exact Nat.le_of_succ_le (ih ends)
      · exact Nat.le_of_eq (Option.some.inj ends)

/-- The step is the power of ten of the width, without its carries; a limit
that was reached is not above the power. -/
theorem widthLoop_covers (ends : widthLoop maxCount rounds step indexWidth = some width)
    (power : step.toNat = 10 ^ indexWidth % 2 ^ 32) : maxCount.toNat ≤ 10 ^ width := by
  induction rounds generalizing step indexWidth with
  | zero => cases ends
  | succ rounds ih =>
      rw [widthLoop] at ends
      split at ends
      · apply ih ends
        rw [UInt32.toNat_mul, power, Nat.pow_succ]
        exact Nat.mod_mul_mod _ _ _
      · rename_i done
        rw [UInt32.not_lt, UInt32.le_iff_toNat_le, power] at done
        rw [← Option.some.inj ends]
        exact Nat.le_trans done (Nat.mod_le _ _)

/-- Once the step is zero it stays zero. -/
theorem widthLoop_zero (positive : 0 < maxCount) (rounds indexWidth : Nat) :
    widthLoop maxCount rounds 0 indexWidth = none := by
  induction rounds generalizing indexWidth with
  | zero => rfl
  | succ rounds ih =>
      rw [widthLoop, if_pos positive, UInt32.zero_mul, ih]

/-- The names of one pattern have one length and are ordered like their numbers. -/
theorem updateName_lt (names : FileName) {first second : Nat} (positive : 0 < width)
    (fits : second < 10 ^ width) (less : first < second) :
    (names.updateName width first).length = (names.updateName width second).length ∧
      names.updateName width first < names.updateName width second := by
  have fits' : first < 10 ^ width := Nat.lt_trans less fits
  rw [FileName.updateName, FileName.updateName, padded_eq_lastDigits positive fits,
    padded_eq_lastDigits positive fits']
  constructor
  · simp
  · rw [List.append_assoc, List.append_assoc]
    apply List.Lex.append_left
    exact lex_append_of_length (lastDigits_lt less fits) (by simp) _ _

/-- A limit of ten digits may not exceed 10¹⁰ without its carries. -/
theorem widthLoop_eq_digits (several : 2 ≤ maxCount.toNat) (small : maxCount.toNat ≤ 1410065408) :
    ∃ rounds, widthLoop maxCount rounds 10 1 =
      some (Nat.digits 10 (maxCount.toNat - 1)).length := by
  obtain ⟨count, digits⟩ : ∃ count, (Nat.digits 10 (maxCount.toNat - 1)).length = count + 1 := by
    refine Nat.exists_eq_succ_of_ne_zero ?_
    rw [Ne, List.length_eq_zero_iff, Nat.digits_eq_nil_iff_eq_zero]
    omega
  have lower : 10 ^ count ≤ maxCount.toNat - 1 :=
    (Nat.lt_digits_length_iff (by decide) _).mp (by omega)
  have upper : maxCount.toNat - 1 < 10 ^ (count + 1) :=
    (Nat.digits_length_le_iff (by decide) _).mp (by omega)
  have ten : count < 10 := by
    by_contra large
    have power := Nat.pow_le_pow_right (show 0 < 10 by decide) (Nat.le_of_not_lt large)
    omega
  have steps : ∀ count < 10, ∀ round < count, ((10 : UInt32) * 10 ^ round).toNat ≤ 10 ^ count := by
    decide
  have final : ∀ count < 10, ((10 : UInt32) * 10 ^ count).toNat = min (10 ^ (count + 1)) 1410065408 := by
    decide
  refine ⟨count + 1, ?_⟩
  rw [widthLoop_skip, widthLoop, if_neg, digits, Nat.add_comm]
  · rw [UInt32.lt_iff_toNat_lt, final count ten]
    omega
  · intro round inside
    have step := steps count ten round inside
    rw [UInt32.lt_iff_toNat_lt]
    omega

/-- The width is that of the largest index exactly up to 10¹⁰ modulo 2³²;
for larger limits the step wraps before it reaches them. -/
theorem indexWidth_counts_iff (maxCount : UInt32) :
    (∃ rounds width, widthLoop maxCount rounds 10 1 = some width ∧
      (2 ≤ maxCount.toNat → width = (Nat.digits 10 (maxCount.toNat - 1)).length ∧
        ∀ (names : FileName) (first second : Nat), first < second → second < maxCount.toNat →
          (names.updateName width first).length = (names.updateName width second).length ∧
            names.updateName width first < names.updateName width second)) ↔
      maxCount.toNat ≤ 1410065408 := by
  constructor
  · intro ⟨rounds, width, ends, counts⟩
    by_contra large
    have width' := (counts (by omega)).1
    have upper : (Nat.digits 10 (maxCount.toNat - 1)).length ≤ 10 :=
      (Nat.digits_length_le_iff (by decide) _).mpr
        (Nat.lt_of_le_of_lt (Nat.sub_le _ _) (Nat.lt_trans maxCount.toNat_lt (by decide)))
    have steps : ∀ round < 10, ((10 : UInt32) * 10 ^ round).toNat ≤ 1410065408 := by decide
    have more := widthLoop_more ends 10
    rw [Nat.add_comm, widthLoop_skip] at more
    · have wide := widthLoop_le more
      omega
    · intro round inside
      have step := steps round inside
      rw [UInt32.lt_iff_toNat_lt]
      omega
  · intro small
    by_cases several : 2 ≤ maxCount.toNat
    · obtain ⟨rounds, ends⟩ := widthLoop_eq_digits several small
      refine ⟨rounds, _, ends, fun _ => ⟨rfl, ?_⟩⟩
      intro names first second less inside
      have covers := widthLoop_covers ends rfl
      exact updateName_lt names (widthLoop_le ends) (by omega) less
    · refine ⟨1, 1, ?_, fun other => absurd other several⟩
      rw [widthLoop, if_neg]
      rw [UInt32.lt_iff_toNat_lt]
      change ¬ 10 < maxCount.toNat
      omega

/-- Below the largest limit the step becomes zero and stays there. -/
theorem widthLoop_endless : ¬ ∃ rounds width, widthLoop 0xffffffff rounds 10 1 = some width := by
  intro ⟨rounds, width, ends⟩
  have below : ∀ round < 31, (10 : UInt32) * 10 ^ round < 0xffffffff := by decide
  have zero : (10 : UInt32) * 10 ^ 31 = 0 := by decide
  have more := widthLoop_more ends 31
  rw [Nat.add_comm, widthLoop_skip below, zero, widthLoop_zero (by decide)] at more
  cases more

end Width

/-! ## The index after a restart -/

section Restart

variable {rounds indexWidth index : Nat} {maxCount : UInt32}
  {links : List UInt8 → Option (List UInt8)}

/-- The link drops at most one character of the pattern. -/
theorem split_length (str : List UInt8) :
    let names := FileName.split str
    names.symlink.length ≤ names.namePref.length + names.nameSufx.length ∧
      names.namePref.length + names.nameSufx.length ≤ names.symlink.length + 1 := by
  rw [FileName.split]
  split
  · rename_i split found
    have inside := find_le found
    simp only [List.length_append, List.length_take]
    split <;> omega
  · simp

/-- The index behind a stored one. -/
def nextIndex (maxCount : UInt32) (index : Nat) : Nat :=
  if maxCount.toNat ≤ index + 1 then 0 else index + 1

theorem nextIndex_eq_iff {first second : Nat} (inside : first < maxCount.toNat)
    (inside' : second < maxCount.toNat) :
    nextIndex maxCount first = nextIndex maxCount second ↔ first = second := by
  simp only [nextIndex]
  split <;> split <;> omega

/-- Digits in front of a place where the suffix is found. -/
theorem strtoul10_front {place : Nat} (inside : place ≤ indexWidth) (fits : index < 10 ^ indexWidth)
    (small : index < 2 ^ 64) :
    (strtoul10 (cstr ((lastDigits indexWidth index).take place))).value =
      index / 10 ^ (indexWidth - place) := by
  obtain ⟨back, rfl⟩ := Nat.exists_eq_add_of_le inside
  have cut : (lastDigits (place + back) index).take place = lastDigits place (index / 10 ^ back) := by
    rw [lastDigits_add, List.take_left' (lastDigits_length _ _)]
  have text : cstr (lastDigits place (index / 10 ^ back)) = lastDigits place (index / 10 ^ back) := by
    rw [cstr, List.takeWhile_eq_self_iff]
    intro byte member
    have digit := (isDigit_iff byte).mp (lastDigits_digits _ _ byte member)
    rw [bne_iff_ne]
    rintro rfl
    exact absurd digit.1 (by decide)
  have high : index / 10 ^ back < 10 ^ place := by
    apply Nat.div_lt_of_lt_mul
    rwa [Nat.pow_add, Nat.mul_comm] at fits
  rw [cut, text, Nat.add_sub_cancel_left]
  rcases Nat.eq_zero_or_pos place with rfl | positive
  · rw [Nat.pow_zero, Nat.lt_one_iff] at high
    rw [high]
    rfl
  · exact strtoul10_lastDigits positive high (Nat.lt_of_le_of_lt (Nat.div_le_self _ _) small)

/-- The suffix is cut off at its first place, which may lie in the digits. -/
theorem stripSuffix_place (nameSufx digits : List UInt8) :
    ∃ place ≤ digits.length, stripSuffix nameSufx (digits ++ nameSufx) = some (digits.take place) ∧
      (place = digits.length ↔ nameSufx = [] ∨
        ∀ earlier < digits.length, ¬ nameSufx <+: (digits ++ nameSufx).drop earlier) := by
  by_cases empty : nameSufx = []
  · refine ⟨digits.length, Nat.le_refl _, ?_, by simp [empty]⟩
    rw [stripSuffix, if_pos empty, empty, List.append_nil, List.take_length]
  · have somewhere : ∃ place, nameSufx <+: (digits ++ nameSufx).drop place :=
      ⟨digits.length, by rw [List.drop_left]⟩
    have inside : Nat.find somewhere ≤ digits.length :=
      Nat.find_min' somewhere (by rw [List.drop_left])
    have found := find_of_first (Nat.find_spec somewhere) fun _ before =>
      Nat.find_min somewhere before
    refine ⟨Nat.find somewhere, inside, ?_, ?_⟩
    · rw [stripSuffix, if_neg empty, found, Option.map_some, List.take_append_of_le_length inside]
    · rw [or_iff_right empty]
      constructor
      · intro last earlier before
        exact Nat.find_min somewhere (last ▸ before)
      · intro nowhere
        by_contra different
        exact nowhere _ (Nat.lt_of_le_of_ne inside different) (Nat.find_spec somewhere)

theorem updateName_length (names : FileName) (positive : 0 < indexWidth)
    (fits : index < 10 ^ indexWidth) : (names.updateName indexWidth index).length =
      names.namePref.length + indexWidth + names.nameSufx.length := by
  rw [FileName.updateName, List.length_append, List.length_append, padded_length positive fits]

/-- `read_link` on a name that fits into its buffer. -/
theorem readLink_eq {names : FileName} {place : Nat} (positive : 0 < indexWidth)
    (fits : index < 10 ^ indexWidth) (counted : index < maxCount.toNat)
    (points : links names.symlink = some (names.updateName indexWidth index))
    (room : (names.updateName indexWidth index).length ≤ names.linkLen indexWidth)
    (inside : place ≤ indexWidth)
    (cut : stripSuffix names.nameSufx (lastDigits indexWidth index ++ names.nameSufx) =
      some ((lastDigits indexWidth index).take place)) :
    names.readLink maxCount links indexWidth =
      nextIndex maxCount (index / 10 ^ (indexWidth - place)) := by
  have length := updateName_length names positive fits
  have whole : readlink links names.symlink (names.linkLen indexWidth) =
      some (names.updateName indexWidth index) := by
    rw [readlink, if_neg (by omega), points, Option.map_some, List.take_of_length_le room]
  have pref : find names.namePref (names.updateName indexWidth index) = some 0 := by
    apply find_of_first
    · rw [List.drop_zero, FileName.updateName, List.append_assoc]
      exact List.prefix_append _ _
    · intro earlier before
      exact absurd before (Nat.not_lt_zero earlier)
  have rest : (names.updateName indexWidth index).drop names.namePref.length =
      lastDigits indexWidth index ++ names.nameSufx := by
    rw [FileName.updateName, List.append_assoc, List.drop_left, padded_eq_lastDigits positive fits]
  have bound := maxCount.toNat_lt
  have front := strtoul10_front inside fits (Nat.lt_trans counted (Nat.lt_trans bound (by decide)))
  have smaller := Nat.div_le_self index (10 ^ (indexWidth - place))
  simp only [FileName.readLink, whole, pref, ne_eq, not_true_eq_false, if_false, rest, cut, front,
    nextIndex]
  rw [if_neg (by omega), if_neg (by omega)]

/-- A restart goes on behind the stored index exactly if the buffer size is
computed without a carry and the first place of the suffix is not in the
digits, or the index is zero. -/
theorem initName_resumes_iff {filename : List UInt8} {file : FileNames}
    (ends : initName rounds maxCount links filename = some file) (counted : index < maxCount.toNat)
    (points : links file.names.symlink = some (file.names.updateName file.indexWidth index)) :
    (file.nameIndex = (if index + 1 = maxCount.toNat then 0 else index + 1) ∧
      (file.names.updateName file.indexWidth index).length ≤ file.names.linkLen file.indexWidth) ↔
    file.names.symlink.length + file.indexWidth + 1 < 2 ^ 32 ∧
      (index = 0 ∨ file.names.nameSufx = [] ∨ ∀ place < file.indexWidth,
        ¬ file.names.nameSufx <+:
          (padded file.indexWidth index ++ file.names.nameSufx).drop place) := by
  rw [initName, Option.bind_eq_bind, Option.bind_eq_some_iff] at ends
  obtain ⟨indexWidth, width, made⟩ := ends
  rw [← Option.some.inj made] at points ⊢
  have covers := widthLoop_covers width rfl
  have positive : 0 < indexWidth := widthLoop_le width
  have fits : index < 10 ^ indexWidth := Nat.lt_of_lt_of_le counted covers
  dsimp only at points ⊢
  obtain ⟨shorter, longer⟩ := split_length (cstr filename)
  generalize FileName.split (cstr filename) = names at points shorter longer ⊢
  have length := updateName_length names positive fits
  have expected : (if index + 1 = maxCount.toNat then 0 else index + 1) = nextIndex maxCount index := by
    rw [nextIndex]
    split <;> split <;> omega
  by_cases carry : names.symlink.length + indexWidth + 1 < 2 ^ 32
  · have room : (names.updateName indexWidth index).length ≤ names.linkLen indexWidth := by
      rw [length, FileName.linkLen, Nat.mod_eq_of_lt carry]
      omega
    obtain ⟨place, inside, cut, last⟩ :=
      stripSuffix_place names.nameSufx (lastDigits indexWidth index)
    rw [lastDigits_length] at inside last
    rw [readLink_eq positive fits counted points room inside cut, expected, and_iff_left room,
      and_iff_right carry, padded_eq_lastDigits positive fits, ← last,
      nextIndex_eq_iff (Nat.lt_of_le_of_lt (Nat.div_le_self _ _) counted) counted]
    constructor
    · intro same
      rcases Nat.eq_zero_or_pos index with zero | nonzero
      · exact .inl zero
      · refine .inr (Nat.le_antisymm inside ?_)
        by_contra before
        have smaller := Nat.div_lt_self nonzero
          (Nat.one_lt_pow (show indexWidth - place ≠ 0 by omega) (show 1 < 10 by decide))
        omega
    · intro either
      rcases either with rfl | rfl
      · rw [Nat.zero_div]
      · rw [Nat.sub_self, Nat.pow_zero, Nat.div_one]
  · have short : ¬ (names.updateName indexWidth index).length ≤ names.linkLen indexWidth := by
      rw [length, FileName.linkLen]
      have lost : ∀ size, 2 ^ 32 ≤ size → size % 2 ^ 32 ≤ size - 2 ^ 32 := by
        intro size
        omega
      have wrapped := lost _ (Nat.le_of_not_lt carry)
      omega
    constructor
    · intro ⟨_, room⟩
      exact absurd room short
    · intro ⟨small, _⟩
      exact absurd small carry

/-- The chunk 3 of at most 8. -/
theorem initName_resumes_third :
    ∃ file, initName 1 8 (fun _ => some (ascii "app.3.log")) (ascii "app.#.log") = some file ∧
      file.nameIndex = 4 := by
  refine ⟨_, rfl, ?_⟩
  have resumes := @initName_resumes_iff 1 3 8 (fun _ => some (ascii "app.3.log"))
    (ascii "app.#.log") _ rfl (by decide) rfl
  exact (resumes.mpr ⟨by decide, .inr (.inr (by decide))⟩).1

/-- The suffix `0` is found in the leading zero of the index 10. -/
theorem suffix_in_digits :
    ∃ file, initName 3 128 (fun _ => some (ascii "log0100")) (ascii "log#0") = some file ∧
      file.names.updateName file.indexWidth 10 = ascii "log0100" ∧ file.nameIndex = 1 ∧
      ¬ file.nameIndex = 10 + 1 :=
  ⟨_, rfl, by decide, by decide, by decide⟩

end Restart

end Hogl.Output
