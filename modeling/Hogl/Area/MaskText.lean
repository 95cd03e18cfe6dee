import Hogl.Area.Mask

namespace Hogl

/-! # Masks as text

The stream operators of `src/mask.cc`, over the parts of `std::ostream` and
`std::istream` that they use. -/

structure Ostream where
  written : List UInt8
  width : Nat
  fill : UInt8

namespace Ostream

/-- `operator<<` on a string pads it to the width and resets the width. -/
def put (stream : Ostream) (text : List UInt8) : Ostream :=
  { stream with
    written := stream.written ++
      (List.replicate (stream.width - text.length) stream.fill ++ text)
    width := 0 }

def setWidth (stream : Ostream) (width : Nat) : Ostream := { stream with width }

end Ostream

structure Istream where
  input : List UInt8
  eofbit : Bool
  failbit : Bool

namespace Istream

def newline : UInt8 := 0x0a

/-- A stream over a text that nothing was read from. -/
def ofText (text : List UInt8) : Istream := { input := text, eofbit := false, failbit := false }

def good (stream : Istream) : Bool := !stream.eofbit && !stream.failbit

/-- `istream::get(streambuf &)`: it stops before a newline, which stays in the
stream, and fails if it has nothing to store. -/
def get (stream : Istream) : List UInt8 × Istream :=
  if stream.good then
    let line := stream.input.takeWhile (· != newline)
    let rest := stream.input.dropWhile (· != newline)
    (line, { input := rest, eofbit := rest.isEmpty, failbit := line.isEmpty })
  else ([], { stream with failbit := true })

/-- A bound on the turns that the stream is good for. -/
def turns (stream : Istream) : Nat := if stream.good then stream.input.length + 1 else 0

theorem get_turns {stream : Istream} (good : stream.good = true) :
    stream.get.2.turns < stream.turns := by
  have split := congrArg List.length (List.takeWhile_append_dropWhile
    (p := (· != newline)) (l := stream.input))
  rw [List.length_append] at split
  simp only [turns, get, good, if_true]
  split
  · rename_i again
    have stored : stream.input.takeWhile (· != newline) ≠ [] := by
      intro nothing
      simp [Istream.good, nothing] at again
    have positive := List.length_pos_of_ne_nil stored
    omega
  · omega

end Istream

namespace Mask

/-- `mask::operator>>(ostream)`. -/
def write (mask : Mask) (stream : Ostream) : Ostream :=
  let width := stream.width % 2 ^ 32
  mask.foldl (fun stream data =>
    (((stream.setWidth width).put []).put data.str).put [Istream.newline]) stream

/-- `operator>>(istream, mask)`. -/
def read (regex : Regex) (stream : Istream) (mask : Mask) : Option (Mask × Istream) :=
  if stream.good = true then
    match mask.add regex stream.get.1 with
    | none => none
    | some mask => read regex stream.get.2 mask
  else some (mask, stream)
termination_by stream.turns
decreasing_by exact Istream.get_turns ‹_›

/-- The strings a mask was built from. -/
def strings (mask : Mask) : List (List UInt8) := mask.map MaskData.str

theorem add_strings {regex : Regex} {mask after : Mask} {str : List UInt8}
    (added : mask.add regex str = some after) : after.strings = mask.strings ++ [str] := by
  rw [add] at added
  obtain ⟨-, equal⟩ := Option.ite_none_right_eq_some.mp added
  cases equal
  simp [strings]

theorem addAll_strings {regex : Regex} {mask after : Mask} {strs : List (List UInt8)}
    (added : addAll regex mask strs = some after) : after.strings = mask.strings ++ strs := by
  induction strs generalizing mask with
  | nil =>
      cases added
      rw [List.append_nil]
  | cons str strs ih =>
      simp only [addAll] at added
      obtain ⟨middle, first, rest⟩ := Option.bind_eq_some_iff.mp added
      rw [ih rest, add_strings first, List.append_assoc, List.singleton_append]

/-! ## Writing -/

theorem write_written (mask : Mask) (stream : Ostream) :
    (mask.write stream).written = stream.written ++ mask.flatMap fun data =>
      List.replicate (stream.width % 2 ^ 32) stream.fill ++ data.str ++ [Istream.newline] := by
  have lines (width : Nat) (stream : Ostream) :
      (mask.foldl (fun stream data =>
        (((stream.setWidth width).put []).put data.str).put [Istream.newline]) stream).written =
      stream.written ++ mask.flatMap fun data =>
        List.replicate width stream.fill ++ data.str ++ [Istream.newline] := by
    induction mask generalizing stream with
    | nil => rw [List.foldl_nil, List.flatMap_nil, List.append_nil]
    | cons data mask ih =>
        rw [List.foldl_cons, ih, List.flatMap_cons]
        simp [Ostream.put, Ostream.setWidth]
  exact lines _ stream

theorem write_newline (mask : Mask) (width : Nat) (fill : UInt8) :
    (mask.write ⟨[], width, fill⟩).written = [] ∨
    Istream.newline ∈ (mask.write ⟨[], width, fill⟩).written := by
  rw [write_written]
  cases mask with
  | nil => exact .inl rfl
  | cons data mask => exact .inr (by simp)

/-! ## Reading -/

theorem read_good {regex : Regex} {stream : Istream} {mask after : Mask} {rest : Istream}
    (good : stream.good = true) (result : read regex stream mask = some (after, rest)) :
    ∃ middle, mask.add regex stream.get.1 = some middle ∧
      read regex stream.get.2 middle = some (after, rest) := by
  rw [read, if_pos good] at result
  cases added : mask.add regex stream.get.1 with
  | none => simp [added] at result
  | some middle =>
      simp only [added] at result
      exact ⟨middle, rfl, result⟩

/-- A turn that has nothing to store adds an empty string and is the last. -/
theorem read_nothing {regex : Regex} {text : List UInt8} {mask after : Mask} {rest : Istream}
    (nothing : text.takeWhile (· != Istream.newline) = [])
    (result : read regex (.ofText text) mask = some (after, rest)) :
    after.strings = mask.strings ++ [[]] := by
  obtain ⟨middle, added, last⟩ := read_good rfl result
  have got : (Istream.ofText text).get =
      ([], { input := text.dropWhile (· != Istream.newline)
             eofbit := (text.dropWhile (· != Istream.newline)).isEmpty
             failbit := true }) := by
    simp [Istream.get, Istream.ofText, Istream.good, nothing]
  rw [got] at added last
  rw [read, if_neg (by simp [Istream.good])] at last
  cases last
  exact add_strings added

theorem get_line {line : List UInt8} (stored : line ≠ []) (plain : Istream.newline ∉ line)
    (more : List UInt8) :
    (Istream.ofText (line ++ Istream.newline :: more)).get =
      (line, .ofText (Istream.newline :: more)) := by
  have all : ∀ byte ∈ line, (byte != Istream.newline) = true := by
    intro byte inside
    rw [bne_iff_ne]
    rintro rfl
    exact plain inside
  have taken : (line ++ Istream.newline :: more).takeWhile (· != Istream.newline) = line := by
    rw [List.takeWhile_append_of_pos all]
    simp
  have dropped : (line ++ Istream.newline :: more).dropWhile (· != Istream.newline) =
      Istream.newline :: more := by
    rw [List.dropWhile_append_of_pos all]
    simp
  simp [Istream.get, Istream.ofText, Istream.good, taken, dropped, stored]

/-- A first line is read, but its newline stays for the next turn. -/
theorem read_line {regex : Regex} {line : List UInt8} (stored : line ≠ [])
    (plain : Istream.newline ∉ line) {more : List UInt8} {mask after : Mask} {rest : Istream}
    (result : read regex (.ofText (line ++ Istream.newline :: more)) mask = some (after, rest)) :
    after.strings = mask.strings ++ [line, []] := by
  obtain ⟨middle, added, next⟩ := read_good rfl result
  rw [get_line stored plain] at added next
  have nothing : (Istream.newline :: more).takeWhile (· != Istream.newline) = [] := by simp
  rw [read_nothing nothing next, add_strings added, List.append_assoc]
  rfl

theorem read_strings {regex : Regex} {text : List UInt8}
    (ends : text = [] ∨ Istream.newline ∈ text) {mask after : Mask} {rest : Istream}
    (result : read regex (.ofText text) mask = some (after, rest)) : [] ∈ after.strings := by
  rcases ends with rfl | member
  · rw [read_nothing rfl result]
    simp
  · obtain ⟨line, more, rfl, plain⟩ := List.eq_append_cons_of_mem member
    by_cases stored : line = []
    · subst stored
      rw [read_nothing (by simp) result]
      simp
    · rw [read_line stored plain result]
      simp

/-- What reading the text of a mask yields, if no pattern is refused, has an
empty string at its end that no mask of non-empty strings has. -/
theorem mask_text_never_read_back (regex : Regex) (strs : List (List UInt8))
    (nonempty : ∀ str ∈ strs, str ≠ []) (mask : Mask)
    (built : addAll regex [] strs = some mask) (width : Nat) (fill : UInt8) :
    ¬ ∃ back rest, read regex (.ofText (mask.write ⟨[], width, fill⟩).written) [] =
      some (back, rest) ∧ back.strings = mask.strings := by
  intro ⟨back, rest, result, same⟩
  have member := read_strings (write_newline mask width fill) result
  have original : mask.strings = strs := addAll_strings built
  rw [same, original] at member
  exact nonempty [] member rfl

theorem mask_text_never_read_back_one_string :
    (∀ str ∈ [ascii "A:S"], str ≠ []) ∧
    ∃ mask, addAll wildcards [] [ascii "A:S"] = some mask ∧
      ¬ ∃ back rest, read wildcards (.ofText (mask.write ⟨[], 0, 32⟩).written) [] =
        some (back, rest) ∧ back.strings = mask.strings :=
  ⟨by decide, _, rfl, mask_text_never_read_back wildcards [ascii "A:S"] (by decide) _ rfl 0 32⟩

/-- The second string is not read back; an empty one, which enables everything,
takes its place. -/
theorem mask_text_enables_everything :
    let area : MaskedArea := ⟨⟨ascii "A", [ascii "S"]⟩, ⟨1, [0], by decide⟩, rfl⟩
    let mask : Mask := [⟨ascii "A:S", ascii "A", ascii "S", true⟩,
      ⟨ascii "!A:S", ascii "A", ascii "S", false⟩]
    let back : Mask := [⟨ascii "A:S", ascii "A", ascii "S", true⟩,
      ⟨[], ascii ".*", ascii ".*", true⟩]
    addAll wildcards [] [ascii "A:S", ascii "!A:S"] = some mask ∧
    (mask.write ⟨[], 0, 32⟩).written = ascii "A:S\n!A:S\n" ∧
    (∃ rest, read wildcards (.ofText (ascii "A:S\n!A:S\n")) [] = some (back, rest)) ∧
    back.strings ≠ mask.strings ∧
    (mask.apply wildcards area).test 0 = false ∧ (back.apply wildcards area).test 0 = true := by
  intro area mask back
  have first : add wildcards [] (Istream.ofText (ascii "A:S\n!A:S\n")).get.1 =
      some [⟨ascii "A:S", ascii "A", ascii "S", true⟩] := by decide
  have second : add wildcards [⟨ascii "A:S", ascii "A", ascii "S", true⟩]
      (Istream.ofText (ascii "A:S\n!A:S\n")).get.2.get.1 = some back := by decide
  refine ⟨by decide, by decide, ⟨(Istream.ofText (ascii "A:S\n!A:S\n")).get.2.get.2, ?_⟩,
    by decide, by decide, by decide⟩
  rw [read, if_pos (by decide), first]
  change read wildcards (Istream.ofText (ascii "A:S\n!A:S\n")).get.2
    [⟨ascii "A:S", ascii "A", ascii "S", true⟩] = _
  rw [read, if_pos (by decide), second]
  change read wildcards (Istream.ofText (ascii "A:S\n!A:S\n")).get.2.get.2 back = _
  rw [read, if_neg (by decide)]

end Mask

end Hogl
