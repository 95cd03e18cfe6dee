import Mathlib.Data.List.Basic
import Mathlib.Tactic.Ring

namespace Hogl.Data

/-! # Byte memories

A memory block is a list of bytes.  Stores are partial: a store that would
touch a byte outside the block has no result, so a program that runs to a
result has kept every byte it wrote inside. -/

/-- The `width` low bytes of a number, least significant byte first. -/
def leBytes (width value : Nat) : List UInt8 :=
  (List.range width).map fun index => UInt8.ofNat (value / 256 ^ index)

def leValue : List UInt8 → Nat
  | [] => 0
  | byte :: bytes => byte.toNat + 256 * leValue bytes

def readAt (memory : List UInt8) (offset count : Nat) : List UInt8 :=
  (memory.drop offset).take count

def writeAt (memory : List UInt8) (offset : Nat) (bytes : List UInt8) : Option (List UInt8) :=
  if offset + bytes.length ≤ memory.length then
    some (memory.take offset ++ bytes ++ memory.drop (offset + bytes.length))
  else none

/-! ## Numbers as bytes -/

@[simp] theorem leBytes_length (width value : Nat) : (leBytes width value).length = width := by
  simp [leBytes]

theorem leBytes_succ (width value : Nat) :
    leBytes (width + 1) value = UInt8.ofNat value :: leBytes width (value / 256) := by
  simp only [leBytes, List.range_succ_eq_map, List.map_cons, List.map_map, pow_zero, Nat.div_one,
    List.cons.injEq, true_and]
  apply List.map_congr_left
  intro index _
  rw [Function.comp_apply, Nat.succ_eq_add_one, pow_succ', Nat.div_div_eq_div_mul]

theorem leBytes_add (width extra value : Nat) :
    leBytes (width + extra) value = leBytes width value ++ leBytes extra (value / 256 ^ width) := by
  simp only [leBytes, List.range_add, List.map_append, List.map_map, List.append_cancel_left_eq]
  apply List.map_congr_left
  intro index _
  rw [Function.comp_apply, pow_add, Nat.div_div_eq_div_mul]

theorem leValue_leBytes (width value : Nat) :
    leValue (leBytes width value) = value % 256 ^ width := by
  induction width generalizing value with
  | zero => simp [leBytes, leValue, Nat.mod_one]
  | succ width ih =>
      have low : (UInt8.ofNat value).toNat = value % 256 := UInt8.toNat_ofNat'
      rw [leBytes_succ, leValue, ih, low, pow_succ', Nat.mod_mul]

theorem leValue_lt (bytes : List UInt8) : leValue bytes < 256 ^ bytes.length := by
  induction bytes with
  | nil => decide
  | cons byte bytes ih =>
      have bound := byte.toNat_lt
      rw [leValue, List.length_cons, Nat.pow_succ]
      omega

theorem leValue_leBytes_of_lt {width value : Nat} (bound : value < 256 ^ width) :
    leValue (leBytes width value) = value := by
  rw [leValue_leBytes, Nat.mod_eq_of_lt bound]

/-! ## Loads and stores -/

variable {memory after : List UInt8} {offset start count extra : Nat} {bytes : List UInt8}

theorem readAt_add (memory : List UInt8) (offset count extra : Nat) :
    readAt memory offset (count + extra) =
      readAt memory offset count ++ readAt memory (offset + count) extra := by
  rw [readAt, List.take_add, List.drop_drop]
  rfl

@[simp] theorem readAt_zero (memory : List UInt8) (offset : Nat) : readAt memory offset 0 = [] :=
  List.take_zero

theorem getElem?_readAt (memory : List UInt8) (offset count index : Nat) :
    (readAt memory offset count)[index]? =
      if index < count then memory[offset + index]? else none := by
  rw [readAt, List.getElem?_take]
  split <;> simp [List.getElem?_drop]

theorem writeAt_exists (memory : List UInt8) (offset : Nat) (bytes : List UInt8)
    (inside : offset + bytes.length ≤ memory.length) :
    ∃ after, writeAt memory offset bytes = some after := by
  rw [writeAt, if_pos inside]
  exact ⟨_, rfl⟩

theorem writeAt_inside (written : writeAt memory offset bytes = some after) :
    offset + bytes.length ≤ memory.length := by
  by_contra outside
  rw [writeAt, if_neg outside] at written
  cases written

theorem writeAt_eq_none (outside : memory.length < offset + bytes.length) :
    writeAt memory offset bytes = none :=
  if_neg (Nat.not_le_of_lt outside)

theorem writeAt_length (written : writeAt memory offset bytes = some after) :
    after.length = memory.length := by
  have inside := writeAt_inside written
  rw [writeAt, if_pos inside, Option.some.injEq] at written
  rw [← written]
  simp only [List.length_append, List.length_take, List.length_drop]
  omega

theorem getElem?_writeAt (written : writeAt memory offset bytes = some after) (index : Nat) :
    after[index]? = if offset ≤ index ∧ index < offset + bytes.length then bytes[index - offset]?
      else memory[index]? := by
  have inside := writeAt_inside written
  rw [writeAt, if_pos inside, Option.some.injEq] at written
  have front : (memory.take offset).length = offset := by
    rw [List.length_take]
    omega
  rw [← written, List.append_assoc]
  rcases Nat.lt_or_ge index offset with before | later
  · rw [List.getElem?_append_left (by omega), List.getElem?_take_of_lt before,
      if_neg (by omega)]
  · rw [List.getElem?_append_right (by omega), front]
    rcases Nat.lt_or_ge index (offset + bytes.length) with within | beyond
    · rw [List.getElem?_append_left (by omega), if_pos ⟨later, within⟩]
    · rw [List.getElem?_append_right (by omega), List.getElem?_drop, if_neg (by omega)]
      congr 1
      omega

/-- A load sees what the last store left there. -/
theorem readAt_writeAt_same (written : writeAt memory offset bytes = some after) :
    readAt after offset bytes.length = bytes := by
  apply List.ext_getElem?
  intro index
  rw [getElem?_readAt, getElem?_writeAt written]
  by_cases bound : index < bytes.length
  · rw [if_pos bound, if_pos (by omega)]
    congr 1
    omega
  · rw [if_neg bound]
    exact (List.getElem?_eq_none (by omega)).symm

/-- A load of bytes a store did not touch is unchanged. -/
theorem readAt_writeAt_frame (written : writeAt memory offset bytes = some after)
    (apart : start + count ≤ offset ∨ offset + bytes.length ≤ start) :
    readAt after start count = readAt memory start count := by
  apply List.ext_getElem?
  intro index
  rw [getElem?_readAt, getElem?_readAt, getElem?_writeAt written]
  by_cases bound : index < count
  · rw [if_pos bound, if_pos bound, if_neg (by omega)]
  · rw [if_neg bound, if_neg bound]

theorem writeAt_middle {front old back : List UInt8} (same : bytes.length = old.length) :
    writeAt (front ++ old ++ back) front.length bytes = some (front ++ bytes ++ back) := by
  have whole : (front ++ old ++ back).length = front.length + bytes.length + back.length := by
    rw [List.length_append, List.length_append, same]
  have before : (front ++ old ++ back).take front.length = front := by
    rw [List.append_assoc, List.take_left]
  have behind : (front ++ old ++ back).drop (front.length + bytes.length) = back := by
    rw [same, ← List.length_append, List.drop_left]
  rw [writeAt, if_pos (by omega), before, behind]

theorem writeAt_append {more : List UInt8}
    (written : writeAt memory offset (bytes ++ more) = some after) :
    ∃ middle, writeAt memory offset bytes = some middle ∧
      writeAt middle (offset + bytes.length) more = some after := by
  have inside := writeAt_inside written
  rw [List.length_append] at inside
  obtain ⟨middle, first⟩ := writeAt_exists memory offset bytes (by omega)
  have length := writeAt_length first
  obtain ⟨final, second⟩ := writeAt_exists middle (offset + bytes.length) more (by omega)
  refine ⟨middle, first, ?_⟩
  rw [second, Option.some.injEq]
  apply List.ext_getElem?
  intro index
  rw [getElem?_writeAt second, getElem?_writeAt first, getElem?_writeAt written, List.length_append]
  by_cases later : offset + bytes.length ≤ index
  · rw [List.getElem?_append_right (by omega)]
    by_cases within : index < offset + bytes.length + more.length
    · rw [if_pos ⟨later, within⟩, if_pos (by omega)]
      congr 1
      omega
    · rw [if_neg (by omega), if_neg (by omega), if_neg (by omega)]
  · rw [if_neg (by omega)]
    by_cases within : offset ≤ index
    · rw [if_pos (by omega), if_pos (by omega), List.getElem?_append_left (by omega)]
    · rw [if_neg (by omega), if_neg (by omega)]

/-! ## Filling a block

A block is filled from its start; the cursor is the block with the place of
the next store. -/

/-- Store bytes at the cursor and move it behind them. -/
def put (cursor : List UInt8 × Nat) (bytes : List UInt8) : Option (List UInt8 × Nat) :=
  (writeAt cursor.1 cursor.2 bytes).map fun memory => (memory, cursor.2 + bytes.length)

theorem put_put (cursor : List UInt8 × Nat) (first second : List UInt8) :
    ((put cursor first).bind fun cursor => put cursor second) = put cursor (first ++ second) := by
  cases whole : writeAt cursor.1 cursor.2 (first ++ second) with
  | some final =>
      obtain ⟨middle, front, back⟩ := writeAt_append whole
      simp only [put, front, Option.map_some, Option.bind_some, back, whole, List.length_append,
        Nat.add_assoc]
  | none =>
      simp only [put, whole, Option.map_none]
      cases front : writeAt cursor.1 cursor.2 first with
      | none => rfl
      | some middle =>
          have length := writeAt_length front
          have outside : ¬ cursor.2 + (first ++ second).length ≤ cursor.1.length := by
            intro inside
            obtain ⟨final, written⟩ := writeAt_exists cursor.1 cursor.2 (first ++ second) inside
            rw [whole] at written
            cases written
          rw [List.length_append] at outside
          simp only [Option.map_some, Option.bind_some,
            writeAt_eq_none (show middle.length < cursor.2 + first.length + second.length by omega),
            Option.map_none]

/-- What stands in a block that was filled from its start. -/
theorem put_start (memory bytes : List UInt8) :
    ((put (memory, 0) bytes).map fun cursor => cursor.1.take cursor.2) =
      if bytes.length ≤ memory.length then some bytes else none := by
  rw [put, writeAt, Nat.zero_add]
  split
  · simp only [Option.map_some, List.take_zero, List.nil_append, List.take_left]
  · rfl

/-! ## Searching a text -/

/-- `std::string::find`: the first place where `text` stands. -/
def find (text : List UInt8) : List UInt8 → Option Nat
  | [] => if text = [] then some 0 else none
  | byte :: rest =>
      if text.isPrefixOf (byte :: rest) then some 0 else (find text rest).map (· + 1)

theorem find_le {text whole : List UInt8} {place : Nat} (found : find text whole = some place) :
    place + text.length ≤ whole.length := by
  induction whole generalizing place with
  | nil =>
      rw [find] at found
      split at found
      · rename_i empty
        cases found
        rw [empty]
        rfl
      · cases found
  | cons byte rest ih =>
      rw [find] at found
      split at found
      · rename_i here
        cases found
        rw [Nat.zero_add]
        exact (List.isPrefixOf_iff_prefix.mp here).length_le
      · obtain ⟨later, found', rfl⟩ := Option.map_eq_some_iff.mp found
        have inside := ih found'
        rw [List.length_cons]
        omega

theorem find_of_first {text whole : List UInt8} {place : Nat} (stands : text <+: whole.drop place)
    (first : ∀ earlier < place, ¬ text <+: whole.drop earlier) : find text whole = some place := by
  induction whole generalizing place with
  | nil =>
      rw [List.drop_nil] at stands
      have empty := List.prefix_nil.mp stands
      rcases Nat.eq_zero_or_pos place with rfl | later
      · rw [find, if_pos empty]
      · exact absurd (by rw [empty]; exact List.nil_prefix) (first 0 later)
  | cons byte rest ih =>
      rcases place with - | place
      · have here : text <+: byte :: rest := stands
        rw [find, if_pos (List.isPrefixOf_iff_prefix.mpr here)]
      · have here : ¬ text.isPrefixOf (byte :: rest) = true := fun here =>
          first 0 (Nat.succ_pos place) (List.isPrefixOf_iff_prefix.mp here)
        have later := ih stands fun earlier before =>
          first (earlier + 1) (Nat.succ_lt_succ before)
        rw [find, if_neg here, later]
        rfl

end Hogl.Data
