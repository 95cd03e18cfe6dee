import Mathlib.Data.List.TakeWhile
import Hogl.Data.BitWords
import Hogl.Data.CNumbers
import Hogl.Record.Args

namespace Hogl.Sched

open Hogl.Data

/-! # CPU lists

`cpumask` on Linux and `parse_cpulist` of `src/schedparam.cc`.  A scanner
position is the text from `*p` up to the terminator. -/

/-- The returned error numbers; `success` is 0. -/
inductive Errno where
  | success
  | einval
  | erange
deriving Repr, DecidableEq

structure Cpumask where
  ncpus : Nat
  cpuset : List (BitVec 64)
  covered : ncpus ≤ 64 * cpuset.length

namespace Cpumask

/-- The constructor: `CPU_ALLOC` rounds up to whole words. -/
def create (capacity : Nat) : Cpumask where
  ncpus := capacity
  cpuset := List.replicate ((capacity + 63) / 64) 0
  covered := by rw [List.length_replicate]; omega

variable (mask : Cpumask)

/-- `CPU_SET_S`, which ignores a number outside the allocated set. -/
def set (cpu : Nat) : Cpumask :=
  if cpu / 8 < 8 * mask.cpuset.length then
    { mask with
      cpuset := setBit mask.cpuset cpu true
      covered := by rw [setBit_length]; exact mask.covered }
  else mask

def test (cpu : Nat) : Bool := testBit mask.cpuset cpu

/-- `while (a <= b) mask.set(a++)`. -/
def setRange (first last : Nat) : Cpumask :=
  (List.range' first (last + 1 - first)).foldl set mask

end Cpumask

def dash : UInt8 := 0x2d

def comma : UInt8 := 0x2c

/-- The checks behind the numbers of an item; what is left is the range and
the position behind it. -/
def checkRange (ncpus first last : Nat) (rest : List UInt8) :
    Except Errno (Nat × Nat × List UInt8) :=
  if ¬ first ≤ last then .error .einval
  else if ncpus ≤ last then .error .erange
  else .ok (first, last, rest)

/-- One item of the list, with its numbers narrowed to `unsigned int`. -/
def parseItem (ncpus : Nat) (text : List UInt8) : Except Errno (Nat × Nat × List UInt8) :=
  if text.head?.any isDigit then
    let number := strtoul10 text
    let a := number.value % 2 ^ 32
    if number.rest.head? = some dash then
      let after := number.rest.drop 1
      if after.head?.any isDigit then
        let number := strtoul10 after
        checkRange ncpus a (number.value % 2 ^ 32) number.rest
      else .error .einval
    else checkRange ncpus a a number.rest
  else .error .einval

/-- `if (*p == ',') p++`. -/
def skipComma (text : List UInt8) : List UInt8 :=
  if text.head? = some comma then text.drop 1 else text

theorem checkRange_ok {ncpus first last a b : Nat} {rest after : List UInt8} :
    checkRange ncpus first last rest = .ok (a, b, after) ↔
      (first ≤ last ∧ last < ncpus) ∧ first = a ∧ last = b ∧ rest = after := by
  rw [checkRange]
  split
  · rename_i above
    simp [above]
  · split
    · rename_i outside
      simp [Nat.not_lt.mpr outside]
    · rename_i ordered inside
      simp [not_not.mp ordered, Nat.lt_of_not_le inside]

theorem dropWhile_shorter {text : List UInt8} (digit : text.head?.any isDigit = true) :
    (text.dropWhile isDigit).length < text.length := by
  cases text with
  | nil => simp at digit
  | cons byte rest =>
      have first : isDigit byte = true := by simpa using digit
      rw [List.dropWhile_cons_of_pos first, List.length_cons]
      exact Nat.lt_succ_of_le (List.dropWhile_sublist _).length_le

theorem parseItem_shorter {ncpus a b : Nat} {text rest : List UInt8}
    (parsed : parseItem ncpus text = .ok (a, b, rest)) : rest.length < text.length := by
  simp only [parseItem] at parsed
  split at parsed
  · rename_i digit
    have shorter := dropWhile_shorter digit
    rw [(strtoul10_digit digit).2] at parsed
    split at parsed
    · split at parsed
      · rename_i again
        have shorter' := dropWhile_shorter again
        obtain ⟨-, -, -, rfl⟩ := checkRange_ok.mp parsed
        rw [(strtoul10_digit again).2]
        rw [List.length_drop] at shorter'
        omega
      · cases parsed
    · obtain ⟨-, -, -, rfl⟩ := checkRange_ok.mp parsed
      exact shorter
  · cases parsed

theorem skipComma_length (text : List UInt8) : (skipComma text).length ≤ text.length := by
  rw [skipComma]
  split
  · rw [List.length_drop]
    omega
  · exact Nat.le_refl _

/-- The `do` loop of `parse_cpulist`. -/
def parseItems (text : List UInt8) (mask : Cpumask) : Errno × Cpumask :=
  match _parsed : parseItem mask.ncpus text with
  | .error errno => (errno, mask)
  | .ok (a, b, rest) =>
      if skipComma rest = [] then (.success, mask.setRange a b)
      else parseItems (skipComma rest) (mask.setRange a b)
termination_by text.length
decreasing_by exact Nat.lt_of_le_of_lt (skipComma_length _) (parseItem_shorter _parsed)

def parseCpulist (str : List UInt8) (mask : Cpumask) : Errno × Cpumask := parseItems (cstr str) mask

/-! ## The documented language -/

/-- What is left of a number behind `strtoul` and in an `unsigned int`. -/
def narrow (number : Nat) : Nat := min number (2 ^ 64 - 1) % 2 ^ 32

/-- A decimal number, or a range of two, as it is written. -/
structure Item where
  first : List UInt8
  last : Option (List UInt8)
  firstDigits : first ≠ [] ∧ ∀ byte ∈ first, isDigit byte = true
  lastDigits : ∀ digits ∈ last, digits ≠ [] ∧ ∀ byte ∈ digits, isDigit byte = true

namespace Item

variable (item : Item)

def text : List UInt8 :=
  match item.last with
  | none => item.first
  | some last => item.first ++ dash :: last

def lower : Nat := digitsNumber 10 item.first

def upper : Nat := digitsNumber 10 (item.last.getD item.first)

/-- The item denotes CPUs of the mask. -/
def Fits (ncpus : Nat) : Prop := item.lower ≤ item.upper ∧ item.upper < ncpus

/-- The item denotes CPUs once its numbers are narrowed. -/
def Passes (ncpus : Nat) : Prop :=
  narrow item.lower ≤ narrow item.upper ∧ narrow item.upper < ncpus

def covers (cpu : Nat) : Bool := item.lower ≤ cpu && cpu ≤ item.upper

end Item

/-- Items separated by commas. -/
def listText (items : List Item) : List UInt8 := [comma].intercalate (items.map Item.text)

/-- `str` is a list of these items. -/
structure IsList (ncpus : Nat) (str : List UInt8) (items : List Item) : Prop where
  nonempty : items ≠ []
  text : str = listText items
  fits : ∀ item ∈ items, item.Fits ncpus

/-- The parser does on this string what its grammar says. -/
structure FollowsGrammar (str : List UInt8) (mask : Cpumask) : Prop where
  accepts : (parseCpulist str mask).1 = .success ↔ ∃ items, IsList mask.ncpus str items
  rejects : (¬ ∃ items, IsList mask.ncpus str items) →
    (parseCpulist str mask).1 = .einval ∨ (parseCpulist str mask).1 = .erange
  sets : ∀ items, IsList mask.ncpus str items → ∀ cpu,
    (parseCpulist str mask).2.test cpu = (mask.test cpu || items.any (·.covers cpu))

/-- A comma behind the last item. -/
def trailer (trailing : Bool) : List UInt8 := if trailing then [comma] else []

/-- `str` is a list of items with narrowed numbers, up to a trailing comma and
to what a null character hides. -/
structure IsLaxList (ncpus : Nat) (str : List UInt8) (items : List Item) (trailing : Bool)
    (hidden : List UInt8) : Prop where
  nonempty : items ≠ []
  text : str = listText items ++ trailer trailing ++ hidden
  hides : hidden = [] ∨ hidden.head? = some 0
  passes : ∀ item ∈ items, item.Passes ncpus

/-- No trailing comma, no null character and no number that is narrowed. -/
structure IsPlain (items : List Item) (trailing : Bool) (hidden : List UInt8) : Prop where
  closed : trailing = false
  visible : hidden = []
  small : ∀ item ∈ items, item.lower < 2 ^ 32 ∧ item.upper < 2 ^ 32

/-! ## Setting CPUs -/

namespace Cpumask

variable {mask : Cpumask} {first last cpu : Nat}

@[simp] theorem set_ncpus (cpu : Nat) : (mask.set cpu).ncpus = mask.ncpus := by
  rw [set]
  split <;> rfl

theorem test_set (inside : cpu < mask.ncpus) (other : Nat) :
    (mask.set cpu).test other = (mask.test other || decide (other = cpu)) := by
  have covered := mask.covered
  rw [set, if_pos (by omega)]
  change testBit (setBit mask.cpuset cpu true) other = _
  rw [testBit_setBit (by decide) (by omega)]
  by_cases same : other = cpu <;> simp [same, test]

/-- The loop over a part of the range has set exactly that part. -/
theorem foldl_set (mask : Cpumask) (first count : Nat) (inside : first + count ≤ mask.ncpus) :
    ((List.range' first count).foldl set mask).ncpus = mask.ncpus ∧
    ∀ cpu, ((List.range' first count).foldl set mask).test cpu =
      (mask.test cpu || decide (first ≤ cpu ∧ cpu < first + count)) := by
  induction count with
  | zero => exact ⟨rfl, fun cpu => by simp⟩
  | succ count ih =>
      obtain ⟨ncpus, tests⟩ := ih (by omega)
      rw [List.range'_concat, List.foldl_append, List.foldl_cons, List.foldl_nil, Nat.one_mul]
      refine ⟨(set_ncpus _).trans ncpus, fun cpu => ?_⟩
      rw [test_set (by omega), tests, Bool.or_assoc, ← Bool.decide_or]
      congr 2
      rw [eq_iff_iff]
      omega

theorem setRange_spec (ordered : first ≤ last) (inside : last < mask.ncpus) :
    (mask.setRange first last).ncpus = mask.ncpus ∧
    ∀ cpu, (mask.setRange first last).test cpu =
      (mask.test cpu || decide (first ≤ cpu ∧ cpu ≤ last)) := by
  obtain ⟨ncpus, tests⟩ := foldl_set mask first (last + 1 - first) (by omega)
  refine ⟨ncpus, fun cpu => ?_⟩
  rw [setRange, tests]
  congr 2
  rw [eq_iff_iff]
  omega

end Cpumask

/-! ## Items -/

/-- A row of digits ends where something else follows. -/
theorem row_split {digits tail : List UInt8} (all : ∀ byte ∈ digits, isDigit byte = true)
    (stops : tail.head?.any isDigit = false) :
    (digits ++ tail).takeWhile isDigit = digits ∧ (digits ++ tail).dropWhile isDigit = tail := by
  rw [List.takeWhile_append_of_pos all, List.dropWhile_append_of_pos all]
  cases tail with
  | nil => simp
  | cons byte rest =>
      have other : isDigit byte = false := by simpa using stops
      simp [other]

theorem row_head {digits : List UInt8} (row : digits ≠ [] ∧ ∀ byte ∈ digits, isDigit byte = true)
    (tail : List UInt8) : (digits ++ tail).head?.any isDigit = true := by
  obtain ⟨byte, rest, rfl⟩ := List.exists_cons_of_ne_nil row.1
  simpa using row.2 byte List.mem_cons_self

theorem strtoul10_row {digits tail : List UInt8}
    (row : digits ≠ [] ∧ ∀ byte ∈ digits, isDigit byte = true)
    (stops : tail.head?.any isDigit = false) :
    (strtoul10 (digits ++ tail)).value % 2 ^ 32 = narrow (digitsNumber 10 digits) ∧
    (strtoul10 (digits ++ tail)).rest = tail := by
  obtain ⟨value, rest⟩ := strtoul10_digit (row_head row tail)
  obtain ⟨taken, dropped⟩ := row_split row.2 stops
  rw [value, rest, leadingNumber, taken, dropped]
  exact ⟨rfl, rfl⟩

/-- What may follow an item. -/
def Ends (tail : List UInt8) : Prop := tail = [] ∨ tail.head? = some comma

theorem Ends.stops {tail : List UInt8} (ends : Ends tail) :
    tail.head?.any isDigit = false ∧ tail.head? ≠ some dash := by
  rcases ends with rfl | head
  · exact ⟨rfl, by simp⟩
  · rw [head]
    exact ⟨by decide, by decide⟩

theorem parseItem_text (ncpus : Nat) (item : Item) {tail : List UInt8} (ends : Ends tail) :
    parseItem ncpus (item.text ++ tail) =
      checkRange ncpus (narrow item.lower) (narrow item.upper) tail := by
  obtain ⟨stops, noDash⟩ := ends.stops
  cases form : item.last with
  | none =>
      obtain ⟨value, rest⟩ := strtoul10_row item.firstDigits stops
      have upper : item.upper = item.lower := by rw [Item.upper, Item.lower, form]; rfl
      simp only [parseItem, Item.text, form, row_head item.firstDigits, if_true, value, rest,
        if_neg noDash, upper]
      rfl
  | some last =>
      have lastDigits := item.lastDigits last form
      have dashStops : (dash :: (last ++ tail)).head?.any isDigit = false := by
        change isDigit dash = false
        decide
      obtain ⟨value, rest⟩ := strtoul10_row item.firstDigits dashStops
      obtain ⟨lastValue, lastRest⟩ := strtoul10_row lastDigits stops
      have upper : item.upper = digitsNumber 10 last := by rw [Item.upper, form]; rfl
      simp only [parseItem, Item.text, form, List.append_assoc, List.cons_append,
        row_head item.firstDigits, if_true, value, rest, List.head?_cons, List.drop_succ_cons,
        List.drop_zero, row_head lastDigits, lastValue, lastRest, upper]
      rfl

theorem digits_row {text : List UInt8} (digit : text.head?.any isDigit = true) :
    text.takeWhile isDigit ≠ [] ∧ ∀ byte ∈ text.takeWhile isDigit, isDigit byte = true := by
  refine ⟨?_, fun byte member => List.mem_takeWhile_imp member⟩
  cases text with
  | nil => simp at digit
  | cons byte rest =>
      have first : isDigit byte = true := by simpa using digit
      simp [first]

theorem dropWhile_stops (text : List UInt8) : (text.dropWhile isDigit).head?.any isDigit = false := by
  cases rest : text.dropWhile isDigit with
  | nil => rfl
  | cons byte more =>
      have head := List.head_dropWhile_not isDigit (l := text) (by simp [rest])
      simpa [rest] using head

theorem parseItem_ok {ncpus a b : Nat} {text rest : List UInt8}
    (parsed : parseItem ncpus text = .ok (a, b, rest)) :
    ∃ item : Item, text = item.text ++ rest ∧ item.Passes ncpus ∧
      a = narrow item.lower ∧ b = narrow item.upper ∧ rest.head?.any isDigit = false := by
  simp only [parseItem] at parsed
  split at parsed
  · rename_i digit
    have row := digits_row digit
    have whole := List.takeWhile_append_dropWhile (p := isDigit) (l := text)
    obtain ⟨value, left⟩ := strtoul10_digit digit
    rw [value, left] at parsed
    split at parsed
    · rename_i dashed
      obtain ⟨tail, behind⟩ := List.head?_eq_some_iff.mp dashed
      rw [behind, List.drop_succ_cons, List.drop_zero] at parsed
      split at parsed
      · rename_i again
        have lastRow := digits_row again
        obtain ⟨lastValue, lastLeft⟩ := strtoul10_digit again
        rw [lastValue, lastLeft] at parsed
        obtain ⟨passes, rfl, rfl, rfl⟩ := checkRange_ok.mp parsed
        refine ⟨⟨text.takeWhile isDigit, some (tail.takeWhile isDigit), row, ?_⟩, ?_, passes, rfl,
          rfl, dropWhile_stops tail⟩
        · intro digits member
          rw [← Option.some.inj member]
          exact lastRow
        · rw [Item.text, List.append_assoc, List.cons_append, List.takeWhile_append_dropWhile,
            ← behind, whole]
      · cases parsed
    · obtain ⟨passes, rfl, rfl, rfl⟩ := checkRange_ok.mp parsed
      exact ⟨⟨text.takeWhile isDigit, none, row, by simp⟩, whole.symm, passes, rfl, rfl,
        dropWhile_stops _⟩
  · cases parsed

/-! ## Lists -/

section

variable {text rest : List UInt8} {mask : Cpumask} {a b : Nat}

theorem parseItems_ok (parsed : parseItem mask.ncpus text = .ok (a, b, rest)) :
    parseItems text mask =
      if skipComma rest = [] then (.success, mask.setRange a b)
      else parseItems (skipComma rest) (mask.setRange a b) := by
  rw [parseItems]
  split
  · rename_i failed
    rw [parsed] at failed
    cases failed
  · rename_i found
    rw [parsed] at found
    cases found
    rfl

theorem parseItems_error {errno : Errno} (parsed : parseItem mask.ncpus text = .error errno) :
    parseItems text mask = (errno, mask) := by
  rw [parseItems]
  split
  · rename_i failed
    rw [parsed] at failed
    cases failed
    rfl
  · rename_i found
    rw [parsed] at found
    cases found

end

theorem Item.text_ne_nil (item : Item) : item.text ≠ [] := by
  rw [Item.text]
  split
  · exact item.firstDigits.1
  · simp

theorem listText_cons (item : Item) {items : List Item} (more : items ≠ []) :
    listText (item :: items) = item.text ++ comma :: listText items := by
  rw [listText, List.map_cons, List.intercalate_cons_of_ne_nil (by simpa using more),
    List.append_assoc]
  rfl

theorem listText_singleton (item : Item) : listText [item] = item.text :=
  List.intercalate_singleton

theorem listText_ne_nil {items : List Item} (nonempty : items ≠ []) : listText items ≠ [] := by
  obtain ⟨item, rest, rfl⟩ := List.exists_cons_of_ne_nil nonempty
  by_cases more : rest = []
  · rw [more, listText_singleton]
    exact item.text_ne_nil
  · rw [listText_cons item more]
    simp

theorem trailer_ends (trailing : Bool) : Ends (trailer trailing) ∧ skipComma (trailer trailing) = [] := by
  cases trailing
  · exact ⟨.inl rfl, rfl⟩
  · exact ⟨.inr rfl, rfl⟩

/-- The CPUs an item stands for once its numbers are narrowed. -/
def Item.narrowCovers (item : Item) (cpu : Nat) : Bool :=
  decide (narrow item.lower ≤ cpu ∧ cpu ≤ narrow item.upper)

theorem parseItems_list {items : List Item} (nonempty : items ≠ []) (trailing : Bool)
    {mask : Cpumask} (passes : ∀ item ∈ items, item.Passes mask.ncpus) :
    ∃ after, parseItems (listText items ++ trailer trailing) mask = (.success, after) ∧
      ∀ cpu, after.test cpu = (mask.test cpu || items.any (·.narrowCovers cpu)) := by
  induction items generalizing mask with
  | nil => exact absurd rfl nonempty
  | cons item items ih =>
      have itemPasses := passes item List.mem_cons_self
      obtain ⟨ncpus, tests⟩ := Cpumask.setRange_spec itemPasses.1 itemPasses.2
      by_cases more : items = []
      · subst more
        obtain ⟨ends, skipped⟩ := trailer_ends trailing
        have parsed := (parseItem_text mask.ncpus item ends).trans
          (checkRange_ok.mpr ⟨itemPasses, rfl, rfl, rfl⟩)
        refine ⟨_, by rw [listText_singleton, parseItems_ok parsed, if_pos skipped], ?_⟩
        intro cpu
        rw [tests, List.any_cons, List.any_nil, Bool.or_false, Item.narrowCovers]
      · have tail : Ends (comma :: (listText items ++ trailer trailing)) := .inr rfl
        have parsed := (parseItem_text mask.ncpus item tail).trans
          (checkRange_ok.mpr ⟨itemPasses, rfl, rfl, rfl⟩)
        have skipped : skipComma (comma :: (listText items ++ trailer trailing)) =
            listText items ++ trailer trailing := rfl
        have left : listText items ++ trailer trailing ≠ [] := by
          simp [listText_ne_nil more]
        obtain ⟨after, result, afterTests⟩ := ih more
          (fun other member => ncpus.symm ▸ passes other (List.mem_cons_of_mem _ member))
        refine ⟨after, ?_, ?_⟩
        · rw [listText_cons item more, List.append_assoc, List.cons_append, parseItems_ok parsed,
            skipped, if_neg left, result]
        · intro cpu
          rw [afterTests, tests, List.any_cons, Bool.or_assoc, Item.narrowCovers]

theorem parseItem_no_digit {ncpus : Nat} {text : List UInt8}
    (stops : text.head?.any isDigit = false) : parseItem ncpus text = .error .einval := by
  rw [parseItem, if_neg (by rw [stops]; decide)]

theorem parseItem_error {ncpus : Nat} {text : List UInt8} :
    parseItem ncpus text ≠ .error .success := by
  have range (first last : Nat) (rest : List UInt8) :
      checkRange ncpus first last rest ≠ .error .success := by
    rw [checkRange]
    split
    · simp
    · split <;> simp
  simp only [parseItem]
  split
  · split
    · split
      · exact range _ _ _
      · simp
    · exact range _ _ _
  · simp

/-- An accepted text is a list of items, perhaps with a comma behind it. -/
theorem parseItems_success {text : List UInt8} {mask : Cpumask}
    (success : (parseItems text mask).1 = .success) :
    ∃ items trailing, items ≠ [] ∧ text = listText items ++ trailer trailing ∧
      ∀ item ∈ items, item.Passes mask.ncpus := by
  induction text, mask using parseItems.induct with
  | case1 text mask errno failed =>
      rw [parseItems_error failed] at success
      subst success
      exact absurd failed parseItem_error
  | case2 text mask a b rest parsed last =>
      obtain ⟨item, whole, passes, -⟩ := parseItem_ok parsed
      have only : ∀ other ∈ [item], other.Passes mask.ncpus := by
        intro other member
        rwa [List.mem_singleton.mp member]
      rw [skipComma] at last
      split at last
      · rename_i head
        obtain ⟨tail, rfl⟩ := List.head?_eq_some_iff.mp head
        rw [List.drop_succ_cons, List.drop_zero] at last
        subst last
        exact ⟨[item], true, by simp, by rw [whole, listText_singleton]; rfl, only⟩
      · subst last
        exact ⟨[item], false, by simp, by rw [whole, listText_singleton]; rfl, only⟩
  | case3 text mask a b rest parsed more ih =>
      obtain ⟨item, whole, passes, first, second, stops⟩ := parseItem_ok parsed
      obtain ⟨ncpus, -⟩ := Cpumask.setRange_spec (first ▸ second ▸ passes.1) (second ▸ passes.2)
      rw [parseItems_ok parsed, if_neg more] at success
      obtain ⟨items, trailing, nonempty, tail, rest'⟩ := ih success
      rw [skipComma] at success tail
      split at tail
      · rename_i head
        obtain ⟨tail', rfl⟩ := List.head?_eq_some_iff.mp head
        rw [List.drop_succ_cons, List.drop_zero] at tail
        refine ⟨item :: items, trailing, by simp, ?_, ?_⟩
        · rw [whole, listText_cons item nonempty, tail, List.append_assoc, List.cons_append]
        · intro other member
          rcases List.mem_cons.mp member with rfl | member
          · exact passes
          · rw [← ncpus]
            exact rest' other member
      · -- behind the digits stands neither a digit nor a comma
        rename_i head
        rw [if_neg head, parseItems_error (parseItem_no_digit stops)] at success
        cases success

/-! ## Spelled items -/

/-- The bytes of an item. -/
def isItemByte (byte : UInt8) : Bool := isDigit byte || byte == dash

theorem Item.text_bytes (item : Item) : ∀ byte ∈ item.text, isItemByte byte = true := by
  intro byte member
  rw [isItemByte, Bool.or_eq_true, beq_iff_eq]
  rw [Item.text] at member
  split at member
  · exact .inl (item.firstDigits.2 byte member)
  · rename_i last form
    rcases List.mem_append.mp member with inside | inside
    · exact .inl (item.firstDigits.2 byte inside)
    · rcases List.mem_cons.mp inside with rfl | inside
      · exact .inr rfl
      · exact .inl ((item.lastDigits last form).2 byte inside)

theorem Item.comma_not_mem (item : Item) : comma ∉ item.text := fun member =>
  absurd (item.text_bytes comma member) (by decide)

/-- An item can be read off its text. -/
theorem Item.text_injective {first second : Item} (same : first.text = second.text) :
    first.lower = second.lower ∧ first.upper = second.upper := by
  have parts (item : Item) : item.text.takeWhile isDigit = item.first ∧
      item.text.dropWhile isDigit = (item.last.map (dash :: ·)).getD [] := by
    rw [Item.text]
    cases item.last with
    | none => simpa using row_split item.firstDigits.2 (show ([] : List UInt8).head?.any isDigit = false from rfl)
    | some last =>
        exact row_split item.firstDigits.2 (show isDigit dash = false by decide)
  obtain ⟨firstTaken, firstDropped⟩ := parts first
  obtain ⟨secondTaken, secondDropped⟩ := parts second
  rw [same, secondTaken] at firstTaken
  rw [same, secondDropped] at firstDropped
  have last : first.last = second.last := by
    cases form : first.last <;> cases form' : second.last <;> simp_all
  exact ⟨by rw [Item.lower, Item.lower, firstTaken],
    by rw [Item.upper, Item.upper, firstTaken, last]⟩

theorem listText_bytes {items : List Item} {byte : UInt8} (member : byte ∈ listText items) :
    isItemByte byte = true ∨ byte = comma := by
  induction items with
  | nil => simp [listText] at member
  | cons item items ih =>
      by_cases more : items = []
      · subst more
        rw [listText_singleton] at member
        exact .inl (item.text_bytes byte member)
      · rw [listText_cons item more] at member
        rcases List.mem_append.mp member with inside | inside
        · exact .inl (item.text_bytes byte inside)
        · rcases List.mem_cons.mp inside with rfl | inside
          · exact .inr rfl
          · exact ih inside

theorem listText_no_null (items : List Item) (trailing : Bool) :
    ∀ byte ∈ listText items ++ trailer trailing, (byte != 0) = true := by
  intro byte member
  rw [bne_iff_ne]
  rintro rfl
  rcases List.mem_append.mp member with inside | inside
  · rcases listText_bytes inside with itemByte | equal
    · exact absurd itemByte (by decide)
    · exact absurd equal (by decide)
  · cases trailing with
    | false => cases inside
    | true => exact absurd (List.mem_singleton.mp inside) (by decide)

theorem getLast?_listText {items : List Item} (nonempty : items ≠ []) :
    (listText items).getLast? ≠ some comma := by
  induction items with
  | nil => exact absurd rfl nonempty
  | cons item items ih =>
      by_cases more : items = []
      · subst more
        rw [listText_singleton]
        intro last
        exact item.comma_not_mem (List.mem_of_getLast? last)
      · have left : comma :: listText items ≠ [] := by simp
        rw [listText_cons item more, List.getLast?_append_of_ne_nil _ left,
          List.getLast?_cons_of_ne_nil (listText_ne_nil more)]
        exact ih more

/-! ## Acceptance -/

theorem cstr_append {text hidden : List UInt8} (plain : ∀ byte ∈ text, (byte != 0) = true)
    (hides : hidden = [] ∨ hidden.head? = some 0) : cstr (text ++ hidden) = text := by
  rw [cstr, List.takeWhile_append_of_pos plain]
  rcases hides with rfl | head
  · simp
  · obtain ⟨rest, rfl⟩ := List.head?_eq_some_iff.mp head
    simp

theorem cstr_split (str : List UInt8) :
    ∃ hidden, str = cstr str ++ hidden ∧ (hidden = [] ∨ hidden.head? = some 0) := by
  refine ⟨str.dropWhile (· != 0), List.takeWhile_append_dropWhile.symm, ?_⟩
  cases rest : str.dropWhile (· != 0) with
  | nil => exact .inl rfl
  | cons byte more =>
      have head := List.head_dropWhile_not (· != 0) (l := str) (by simp [rest])
      simp only [rest, List.head_cons, bne_eq_false_iff_eq] at head
      exact .inr (by rw [List.head?_cons, head])

theorem parseCpulist_success_iff (str : List UInt8) (mask : Cpumask) :
    (parseCpulist str mask).1 = .success ↔
      ∃ items trailing hidden, IsLaxList mask.ncpus str items trailing hidden := by
  constructor
  · intro success
    obtain ⟨hidden, split, hides⟩ := cstr_split str
    obtain ⟨items, trailing, nonempty, text, passes⟩ := parseItems_success success
    exact ⟨items, trailing, hidden, nonempty, by rw [← text, ← split], hides, passes⟩
  · intro ⟨items, trailing, hidden, lax⟩
    obtain ⟨after, result, -⟩ := parseItems_list lax.nonempty trailing lax.passes
    rw [parseCpulist, lax.text, cstr_append (listText_no_null items trailing) lax.hides, result]

theorem narrow_of_lt {number : Nat} (small : number < 2 ^ 32) : narrow number = number := by
  rw [narrow]
  omega

theorem IsList.lax {ncpus : Nat} (few : ncpus ≤ 2 ^ 32) {str : List UInt8} {items : List Item}
    (list : IsList ncpus str items) : IsLaxList ncpus str items false [] := by
  refine ⟨list.nonempty, ?_, .inl rfl, ?_⟩
  · rw [list.text, List.append_nil]
    exact (List.append_nil _).symm
  · intro item member
    obtain ⟨ordered, inside⟩ := list.fits item member
    rw [Item.Passes, narrow_of_lt (by omega), narrow_of_lt (by omega)]
    exact ⟨ordered, inside⟩

theorem IsLaxList.list {ncpus : Nat} {str hidden : List UInt8} {items : List Item}
    {trailing : Bool} (lax : IsLaxList ncpus str items trailing hidden)
    (plain : IsPlain items trailing hidden) : IsList ncpus str items := by
  refine ⟨lax.nonempty, ?_, ?_⟩
  · rw [lax.text, plain.closed, plain.visible, List.append_nil]
    exact List.append_nil _
  · intro item member
    obtain ⟨lower, upper⟩ := plain.small item member
    have passes := lax.passes item member
    rwa [Item.Passes, narrow_of_lt lower, narrow_of_lt upper] at passes

/-- A string that is a list has no second reading. -/
theorem IsList.plain {ncpus : Nat} (few : ncpus ≤ 2 ^ 32) {str hidden : List UInt8}
    {items others : List Item} {trailing : Bool} (list : IsList ncpus str others)
    (lax : IsLaxList ncpus str items trailing hidden) : IsPlain items trailing hidden := by
  have texts : listText others = listText items ++ trailer trailing ++ hidden :=
    list.text.symm.trans lax.text
  have visible : hidden = [] := by
    rcases lax.hides with none | head
    · exact none
    · have member : (0 : UInt8) ∈ listText others ++ trailer false := by
        rw [texts]
        simp [List.mem_of_head? head]
      exact absurd (listText_no_null others false 0 member) (by decide)
  rw [visible, List.append_nil] at texts
  have closed : trailing = false := by
    cases trailing with
    | false => rfl
    | true =>
        have last : (listText others).getLast? = some comma := by
          rw [texts]
          exact List.getLast?_concat
        exact absurd last (getLast?_listText list.nonempty)
  refine ⟨closed, visible, ?_⟩
  have same : listText others = listText items := by
    rw [texts, closed]
    exact List.append_nil _
  have commaFree (all : List Item) : ∀ text ∈ all.map Item.text, comma ∉ text := by
    intro text member
    obtain ⟨item, -, rfl⟩ := List.mem_map.mp member
    exact item.comma_not_mem
  have split := congrArg (List.splitOn comma) same
  rw [listText, listText,
    List.splitOn_intercalate comma (commaFree others) (by simpa using list.nonempty),
    List.splitOn_intercalate comma (commaFree items) (by simpa using lax.nonempty)] at split
  intro item member
  obtain ⟨other, inside, equal⟩ := List.mem_map.mp (split ▸ List.mem_map_of_mem member)
  obtain ⟨lower, upper⟩ := Item.text_injective equal
  obtain ⟨ordered, bound⟩ := list.fits other inside
  rw [← lower, ← upper]
  omega

theorem followsGrammar_of_plain {str : List UInt8} {mask : Cpumask} (few : mask.ncpus ≤ 2 ^ 32)
    (plain : ∀ items trailing hidden, IsLaxList mask.ncpus str items trailing hidden →
      IsPlain items trailing hidden) : FollowsGrammar str mask := by
  have accepts : (parseCpulist str mask).1 = .success ↔ ∃ items, IsList mask.ncpus str items := by
    constructor
    · intro success
      obtain ⟨items, trailing, hidden, lax⟩ := (parseCpulist_success_iff str mask).mp success
      exact ⟨items, lax.list (plain items trailing hidden lax)⟩
    · intro ⟨items, list⟩
      exact (parseCpulist_success_iff str mask).mpr ⟨items, false, [], list.lax few⟩
  refine ⟨accepts, ?_, ?_⟩
  · intro outside
    have failed := mt accepts.mp outside
    cases errno : (parseCpulist str mask).1 with
    | success => exact absurd errno failed
    | einval => exact .inl rfl
    | erange => exact .inr rfl
  · intro items list cpu
    have lax := list.lax few
    obtain ⟨after, result, tests⟩ := parseItems_list lax.nonempty false lax.passes
    have covers : ∀ item ∈ items, item.narrowCovers cpu = item.covers cpu := by
      intro item member
      obtain ⟨ordered, inside⟩ := list.fits item member
      rw [Item.narrowCovers, Item.covers, narrow_of_lt (by omega), narrow_of_lt (by omega),
        Bool.decide_and]
    have same : items.any (·.narrowCovers cpu) = items.any (·.covers cpu) := by
      rw [Bool.eq_iff_iff, List.any_eq_true, List.any_eq_true]
      exact exists_congr fun item => and_congr_right fun member => by rw [covers item member]
    rw [parseCpulist, lax.text, cstr_append (listText_no_null items false) lax.hides, result,
      tests, same]

theorem followsGrammar_of_list {str : List UInt8} {mask : Cpumask} (few : mask.ncpus ≤ 2 ^ 32)
    {items : List Item} (list : IsList mask.ncpus str items) : FollowsGrammar str mask :=
  followsGrammar_of_plain few fun _ _ _ lax => list.plain few lax

theorem cpulist_grammar_followed_iff (str : List UInt8) (mask : Cpumask)
    (few : mask.ncpus ≤ 2 ^ 32) :
    FollowsGrammar str mask ↔
      ∀ items trailing hidden, IsLaxList mask.ncpus str items trailing hidden →
        IsPlain items trailing hidden := by
  constructor
  · intro follows items trailing hidden lax
    have success := (parseCpulist_success_iff str mask).mpr ⟨items, trailing, hidden, lax⟩
    obtain ⟨others, list⟩ := follows.accepts.mp success
    exact list.plain few lax
  · intro plain
    exact followsGrammar_of_plain few plain

theorem digits_of_all {digits : List UInt8} (nonempty : digits ≠ [])
    (all : digits.all isDigit = true) :
    digits ≠ [] ∧ ∀ byte ∈ digits, isDigit byte = true :=
  ⟨nonempty, List.all_eq_true.mp all⟩

/-- A list as the tests have it. -/
def sampleItems : List Item :=
  [⟨ascii "0", some (ascii "3"), digits_of_all (by decide) (by decide),
      fun | _, rfl => digits_of_all (by decide) (by decide)⟩,
    ⟨ascii "10", some (ascii "13"), digits_of_all (by decide) (by decide),
      fun | _, rfl => digits_of_all (by decide) (by decide)⟩]

theorem cpulist_grammar_followed_ranges :
    (Cpumask.create 256).ncpus ≤ 2 ^ 32 ∧ ascii "0-3,10-13" = listText sampleItems ∧
    FollowsGrammar (ascii "0-3,10-13") (Cpumask.create 256) := by
  refine ⟨by decide, by decide, ?_⟩
  apply (cpulist_grammar_followed_iff _ _ (by decide)).mpr
  intro items trailing hidden lax
  have list : IsList 256 (ascii "0-3,10-13") sampleItems :=
    ⟨by decide, by decide, by unfold Item.Fits; decide⟩
  exact list.plain (by decide) lax

/-- A trailing comma is accepted, and a huge number is taken for CPU 0. -/
theorem cpulist_accepts_malformed :
    ((parseCpulist (ascii "0,") (Cpumask.create 256)).1 = .success ∧
      ¬ ∃ items, IsList 256 (ascii "0,") items) ∧
    (parseCpulist (ascii "4294967296") (Cpumask.create 256)).1 = .success ∧
      ¬ ∃ items, IsList 256 (ascii "4294967296") items := by
  have comma : IsLaxList 256 (ascii "0,")
      [⟨ascii "0", none, digits_of_all (by decide) (by decide), nofun⟩] true [] :=
    ⟨by decide, by decide, by decide, by unfold Item.Passes; decide⟩
  have huge : IsLaxList 256 (ascii "4294967296")
      [⟨ascii "4294967296", none, digits_of_all (by decide) (by decide), nofun⟩] false [] :=
    ⟨by decide, by decide, by decide, by unfold Item.Passes; decide⟩
  refine ⟨⟨(parseCpulist_success_iff _ _).mpr ⟨_, _, _, comma⟩, ?_⟩,
    (parseCpulist_success_iff _ _).mpr ⟨_, _, _, huge⟩, ?_⟩
  · intro ⟨items, list⟩
    exact absurd (list.plain (by decide) comma).closed (by decide)
  · intro ⟨items, list⟩
    have small := (list.plain (by decide) huge).small _ List.mem_cons_self
    exact absurd small.1 (by decide)

end Hogl.Sched
